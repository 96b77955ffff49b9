/-
  File:      SysProg/Pe/EngineEnter.lean
  Subject:   AN ORDER ARRIVES, at the book of the exchange and at the engine.

  The book keeps every order it ever had; an order that arrives is appended,
  and the trades of the reference matcher take from the orders what they
  traded (`Arrived`). The engine walks along one line and inserts into
  another.

  * `walk_line` -- the engine's walk is the reference matcher's;
  * `Arrived.line` -- the lines of the book afterwards;
  * `engine_arrived` -- both show the same engine.
-/
import SysProg.Pe.Engine

namespace SysProg.Pe

open Lib

/-! ## 1. The walk -/

/-- What is left of an order of the line after some trades. -/
def remains (ts : List Trade) (b : Order) : Option Order :=
  let b' := b.fill (tradedQuantity b.orderIndex.toNat ts)
  if b'.completed then none else some b'

section Walk

variable {fee : Int → Int} {r : Nat} {b o : Order} {ts : List Trade} {l : List Order}

theorem remains_some {b' : Order} : remains ts b = some b' ↔
    b' = b.fill (tradedQuantity b.orderIndex.toNat ts) ∧ b'.completed = false := by
  unfold remains
  dsimp only
  cases hc : (b.fill (tradedQuantity b.orderIndex.toNat ts)).completed with
  | true =>
      rw [if_pos rfl]
      refine ⟨fun h => (Option.some_ne_none _ h.symm).elim, fun h => ?_⟩
      have hopen := h.2
      rw [h.1, hc] at hopen
      cases hopen
  | false =>
      rw [if_neg Bool.false_ne_true, Option.some.injEq]
      exact ⟨fun h => ⟨h.symm, h ▸ hc⟩, fun h => h.1.symm⟩

theorem remains_of_zero (hopen : b.completed = false) (hpos : 1 ≤ b.quantity)
    (h : tradedQuantity b.orderIndex.toNat ts = 0) : remains ts b = some b := by
  refine remains_some.mpr ⟨?_, hopen⟩
  rw [h, fill_zero fun _ => hpos]

/-- Orders that have no share in the trades are left as they are. -/
theorem filterMap_remains (hl : ∀ c ∈ l, c.completed = false ∧ 1 ≤ c.quantity)
    (h : ∀ c ∈ l, tradedQuantity c.orderIndex.toNat ts = 0) : l.filterMap (remains ts) = l := by
  induction l with
  | nil => rfl
  | cons c l ih =>
      obtain ⟨hc, hl'⟩ := List.forall_mem_cons.mp hl
      obtain ⟨h0, h'⟩ := List.forall_mem_cons.mp h
      rw [List.filterMap_cons_some (remains_of_zero hc.1 hc.2 h0), ih hl' h']

/-- An order that is not on the walk. -/
theorem tradedQuantity_off (q : Int) {k : Nat} (hr : k ≠ r)
    (h : ∀ c ∈ l, c.orderIndex.toNat ≠ k) : tradedQuantity k (referenceTrades fee r q l) = 0 := by
  refine tradedQuantity_eq_zero fun y hy => ?_
  have hy' := (referenceTrades_forall (P := fun i j => i ≠ k ∧ j ≠ k) l q).mpr
    (fun c hc => ⟨hr.symm, h c (reached_mem hc)⟩) y hy
  simp only [Trade.involves, Bool.or_eq_false_iff, decide_eq_false_iff_not]
  exact hy'

theorem quote_fill (q : Int) (b : Order) :
    quote (b.fill q) = (quote b).left (b.quantity - q) := by
  rw [fill_eq]
  rfl

/-- What is known of an order in the line a new order at place `r` walks along. -/
structure OnWalk (o : Order) (r : Nat) (b : Order) : Prop where
  otherSide : b.orderType = o.orderType.other
  isOpen : b.completed = false
  positive : 1 ≤ b.quantity
  place : b.orderIndex.toNat ≠ r

/-- **The walk of the engine is the walk of the reference matcher** along the orders of the line
    that meet the limit; `D` reads a trade as a deal. -/
theorem walk_line (fee : Int → Int) {D : Trade → Option Deal} :
    ∀ (l : List Order) (q : Int), (∀ b ∈ l, OnWalk o r b) →
      (l.Pairwise fun a b => a.orderIndex.toNat ≠ b.orderIndex.toNat) →
      (∀ b ∈ l, ∀ q p t, D ⟨r, b.orderIndex.toNat, q, p, t⟩ =
        some ⟨(quote o).key, (quote b).key, q, p⟩) →
      let ts := referenceTrades fee r q
        (l.takeWhile fun b => rank o.orderType.other b.unitPrice ≤ rank o.orderType.other o.unitPrice)
      ((quote o).left q).walk (l.map quote) =
        (ts.filterMap D, (quote o).left (q - tradedQuantity r ts),
          (l.filterMap (remains ts)).map quote) := by
  intro l
  induction l with
  | nil =>
      intro q _ _ _ ts
      show ([], _, []) = ([], (quote o).left (q - 0), [])
      rw [Int.sub_zero]
  | cons b l ih =>
      intro q hl hdist hD ts
      obtain ⟨hb, hl'⟩ := List.forall_mem_cons.mp hl
      obtain ⟨hb_ne, hdist'⟩ := List.pairwise_cons.mp hdist
      obtain ⟨hDb, hD'⟩ := List.forall_mem_cons.mp hD
      have hkeep : ∀ {ts : List Trade}, (∀ c ∈ l, tradedQuantity c.orderIndex.toNat ts = 0) →
          l.filterMap (remains ts) = l :=
        filterMap_remains fun c hc => ⟨(hl' c hc).isOpen, (hl' c hc).positive⟩
      have hmeets : ((quote o).left q).Meets (quote b) ↔
          rank o.orderType.other b.unitPrice ≤ rank o.orderType.other o.unitPrice := by
        show rank b.orderType b.unitPrice ≤ rank b.orderType o.unitPrice ↔ _
        rw [hb.otherSide]
      -- where the walk ends at once, there is no trade
      have hstop : ts = [] → ((quote o).left q).walk ((b :: l).map quote) =
          ([], (quote o).left q, (b :: l).map quote) →
          ((quote o).left q).walk ((b :: l).map quote) =
            (ts.filterMap D, (quote o).left (q - tradedQuantity r ts),
              ((b :: l).filterMap (remains ts)).map quote) := by
        intro hts hw
        rw [hw, hts, List.filterMap_nil, tradedQuantity_nil, Int.sub_zero,
          List.filterMap_cons_some (remains_of_zero hb.isOpen hb.positive rfl),
          hkeep fun _ _ => rfl]
      by_cases hq : q ≤ 0
      · exact hstop (referenceTrades_done hq _)
          (Quote.walk_stop (o := (quote o).left q) (b := quote b) _ (Or.inl hq))
      by_cases hm : rank o.orderType.other b.unitPrice ≤ rank o.orderType.other o.unitPrice
      · have hts : ts = ⟨r, b.orderIndex.toNat, min q b.quantity, b.unitPrice,
            fee (min q b.quantity * b.unitPrice)⟩ ::
            referenceTrades fee r (q - min q b.quantity) (l.takeWhile fun b =>
              rank o.orderType.other b.unitPrice ≤ rank o.orderType.other o.unitPrice) := by
          show referenceTrades fee r q ((b :: l).takeWhile _) = _
          rw [List.takeWhile_cons_of_pos (by simpa using hm), referenceTrades, if_neg hq]
        have hgo : ¬ (((quote o).left q).quantity ≤ 0 ∨ ¬ ((quote o).left q).Meets (quote b)) := by
          rw [hmeets]
          exact fun h => h.elim hq fun h => h hm
        generalize hrest : referenceTrades fee r (q - min q b.quantity) (l.takeWhile fun b =>
          rank o.orderType.other b.unitPrice ≤ rank o.orderType.other o.unitPrice) = rest at hts
        -- the trade with `b`, for `b` itself, the new order, and the others of the line
        have hself : tradedQuantity b.orderIndex.toNat ts = min q b.quantity := by
          rw [hts, tradedQuantity_cons, if_pos (by simp [Trade.involves]), ← hrest,
            tradedQuantity_off _ hb.place fun c hc =>
              (hb_ne c ((List.takeWhile_sublist _).subset hc)).symm, Int.add_zero]
        have hnew : tradedQuantity r ts = min q b.quantity + tradedQuantity r rest := by
          rw [hts, tradedQuantity_cons, if_pos (by simp [Trade.involves])]
        have hothers : ∀ c ∈ l, tradedQuantity c.orderIndex.toNat ts =
            tradedQuantity c.orderIndex.toNat rest := by
          intro c hc
          have hcr := (hl' c hc).place
          have hbc := hb_ne c hc
          rw [hts, tradedQuantity_cons, if_neg (by simp [Trade.involves, hcr.symm, hbc]), Int.zero_add]
        by_cases hlt : q < b.quantity
        · -- the order is used up within `b`
          have hmin : min q b.quantity = q := by omega
          rw [hmin] at hts hself hnew hrest
          rw [Int.sub_self, referenceTrades_done (Int.le_refl 0)] at hrest
          subst hrest
          have hrb : remains ts b = some (b.fill q) := by
            refine remains_some.mpr ⟨by rw [hself], Bool.eq_false_iff.mpr fun hc => ?_⟩
            rcases fill_completed.mp hc with h | h
            · rw [hb.isOpen] at h
              cases h
            · omega
          rw [List.map_cons, Quote.walk_within _ hgo hlt, List.filterMap_cons_some hrb,
            hkeep fun c hc => by rw [hothers c hc]; rfl, hnew, hts,
            List.filterMap_cons_some (hDb _ _ _), List.map_cons, quote_fill, List.filterMap_nil,
            tradedQuantity_nil, Int.add_zero, Int.sub_self]
          rfl
        · -- `b` is used up
          have hmin : min q b.quantity = b.quantity := by omega
          rw [hmin] at hts hself hnew hrest
          have hrb : remains ts b = none := by
            unfold remains
            dsimp only
            rw [hself, if_pos (fill_completed.mpr (Or.inr (by omega)))]
          have hcongr : l.filterMap (remains ts) = l.filterMap (remains rest) := by
            refine List.filterMap_congr fun c hc => ?_
            unfold remains
            rw [hothers c hc]
          have hih := ih (q - b.quantity) hl' hdist' hD'
          simp only [hrest] at hih
          rw [List.map_cons, Quote.walk_past _ hgo (Int.not_lt.mp hlt), Quote.left_left,
            Quote.left_quantity, show (quote b).quantity = b.quantity from rfl, hih,
            List.filterMap_cons_none hrb, hcongr, hnew, ← Int.sub_sub, hts,
            List.filterMap_cons_some (hDb _ _ _)]
          rfl
      · refine hstop ?_ ?_
        · show referenceTrades fee r q ((b :: l).takeWhile _) = _
          rw [List.takeWhile_cons_of_neg (by simpa using hm)]
          rfl
        · exact Quote.walk_stop _ (Or.inr fun h => hm (hmeets.mp h))

end Walk

/-! ## 2. An order arrives -/

/-- The order `o` has come to `book` and has made the trades of the reference matcher. -/
def Arrived (fee : Int → Int) (book : List Order) (o : Order) (book' : List Order) : Prop :=
  ∀ k : Nat, book'[k]? = ((book ++ [{ o with orderIndex := book.length }])[k]?).map
    (Order.fill (tradedQuantity k (arrivalTrades fee book.length book o)))

/-- Every order stands at its index, and the open ones are not empty. -/
structure BookInOrder (book : List Order) : Prop where
  index : Indexed book
  positive : ∀ (k : Nat) (b : Order), book[k]? = some b → b.completed = false → 1 ≤ b.quantity

section Arrival

variable {fee : Int → Int} {book book' : List Order} {o : Order} {side : OrderType} {x : Word}

/-- What is left of the order that arrived. -/
def rest (fee : Int → Int) (book : List Order) (o : Order) : Order :=
  ({ o with orderIndex := book.length } : Order).fill
    (tradedQuantity book.length (arrivalTrades fee book.length book o))

/-- An order the new one does not cross has no share in the trades. -/
theorem traded_of_not_crossing (hI : Indexed book) {c : Order} (hc : c ∈ book)
    (h : ¬ Crossing o.orderType.other o.item o.unitPrice c) :
    tradedQuantity c.orderIndex.toNat (arrivalTrades fee book.length book o) = 0 := by
  have hlt := (List.getElem?_eq_some_iff.mp (getElem?_index hI hc)).1
  refine tradedQuantity_off _ (Nat.ne_of_lt hlt) fun b hb => ?_
  obtain ⟨hmem, hcross⟩ := ((queued_queue hI _ _ _).mem b).mp hb
  exact index_ne hI hmem hc fun hbc => h (hbc ▸ hcross)

theorem Arrived.old (hA : Arrived fee book o book') {k : Nat} {b : Order} (hb : book[k]? = some b) :
    book'[k]? = some (b.fill (tradedQuantity k (arrivalTrades fee book.length book o))) := by
  rw [hA, List.getElem?_append_left (List.getElem?_eq_some_iff.mp hb).1, hb]
  rfl

theorem Arrived.new (hA : Arrived fee book o book') : book'[book.length]? = some (rest fee book o) := by
  rw [hA, List.getElem?_concat_length]
  rfl

theorem Arrived.cases (hA : Arrived fee book o book') {k : Nat} {b' : Order}
    (h : book'[k]? = some b') :
    (∃ b, book[k]? = some b ∧
      b' = b.fill (tradedQuantity k (arrivalTrades fee book.length book o))) ∨
    k = book.length ∧ b' = rest fee book o := by
  rw [hA] at h
  obtain ⟨b, hb, rfl⟩ := Option.map_eq_some_iff.mp h
  rcases getElem?_snoc hb with hb | ⟨rfl, rfl⟩
  · exact Or.inl ⟨b, hb, rfl⟩
  · exact Or.inr ⟨rfl, rfl⟩

theorem Arrived.indexed (hA : Arrived fee book o book') (hI : Indexed book) : Indexed book' := by
  intro k b' hb'
  rcases hA.cases hb' with ⟨b, hb, rfl⟩ | ⟨rfl, rfl⟩
  · rw [fill_orderIndex]
    exact hI k b hb
  · exact fill_orderIndex _ _

theorem Arrived.keyAt (hA : Arrived fee book o book') {k : Nat} (hk : k < book.length) :
    keyAt book' k = keyAt book k := by
  have hb := List.getElem?_eq_getElem hk
  unfold Pe.keyAt
  rw [hA.old hb, hb, Option.map_some, Option.map_some, fill_trader, fill_orderId]

/-- What stands in a line afterwards: what is left of those that stood there, and the order that
    arrived if it is its line and it is not used up. -/
theorem Arrived.inLine (hA : Arrived fee book o book') (hI : Indexed book) (b' : Order) :
    InLine side x book' b' ↔
      (∃ b, InLine side x book b ∧
        remains (arrivalTrades fee book.length book o) b = some b') ∨
      b' = rest fee book o ∧ Resting side x b' := by
  constructor
  · intro h
    obtain ⟨hmem, hrest⟩ := h
    obtain ⟨k, hk⟩ := List.mem_iff_getElem?.mp hmem
    rcases hA.cases hk with ⟨b, hb, rfl⟩ | ⟨_, rfl⟩
    · obtain ⟨hs, hx, ho⟩ := hrest
      have hopen : b.completed = false :=
        Bool.eq_false_iff.mpr fun hc => by
          rw [fill_completed.mpr (Or.inl hc)] at ho
          cases ho
      refine Or.inl ⟨b, ⟨List.mem_of_getElem? hb, ?_, ?_, hopen⟩, remains_some.mpr ⟨?_, ho⟩⟩
      · rw [← hs, fill_orderType]
      · rw [← hx, fill_item]
      · rw [hI k b hb, Int.toNat_natCast]
    · exact Or.inr ⟨rfl, hrest⟩
  · intro h
    rcases h with ⟨b, ⟨hmem, hs, hx, _⟩, hr⟩ | ⟨rfl, hr⟩
    · obtain ⟨rfl, ho⟩ := remains_some.mp hr
      refine ⟨List.mem_of_getElem? (hA.old (getElem?_index hI hmem)), ?_, ?_, ho⟩
      · rw [fill_orderType, hs]
      · rw [fill_item, hx]
    · exact ⟨List.mem_of_getElem? hA.new, hr⟩

/-- The line as it is left by the trades. -/
theorem lined_remains (hI : Indexed book) (ts : List Trade) (side : OrderType) (x : Word) :
    Lined (Precedes side) (fun b' => ∃ b, InLine side x book b ∧ remains ts b = some b')
      ((lineOf side x book).filterMap (remains ts)) := by
  refine (lined_lineOf hI side x).filterMap ?_ ?_
  · intro a b a' b' _ _ ha hb hab
    obtain ⟨rfl, _⟩ := remains_some.mp ha
    obtain ⟨rfl, _⟩ := remains_some.mp hb
    unfold Precedes at hab ⊢
    simpa only [fill_unitPrice, fill_orderIndex] using hab
  · intro a b c ha hb hac hbc
    obtain ⟨hca, _⟩ := remains_some.mp hac
    obtain ⟨hcb, _⟩ := remains_some.mp hbc
    by_contra hne
    refine index_ne hI ha.1 hb.1 hne ?_
    rw [← fill_orderIndex (tradedQuantity a.orderIndex.toNat ts) a, ← hca, hcb, fill_orderIndex]

/-- **The lines after an order has arrived.** -/
theorem Arrived.line (hA : Arrived fee book o book') (hI : Indexed book) (side : OrderType)
    (x : Word) : (lineOf side x book').map quote =
      if Resting side x (rest fee book o) then
        (((lineOf side x book).filterMap
          (remains (arrivalTrades fee book.length book o))).map quote).orderedInsert Quote.Ahead
            (quote (rest fee book o))
      else ((lineOf side x book).filterMap
        (remains (arrivalTrades fee book.length book o))).map quote := by
  have hline := lined_remains hI (arrivalTrades fee book.length book o) side x
  split
  · rename_i hr
    -- the new order has the largest index
    have hless : ∀ b', (∃ b, InLine side x book b ∧
        remains (arrivalTrades fee book.length book o) b = some b') →
        b'.orderIndex < (rest fee book o).orderIndex := by
      intro b' hb'
      obtain ⟨b, hb, hrem⟩ := hb'
      obtain ⟨rfl, _⟩ := remains_some.mp hrem
      have hbi := getElem?_index hI hb.1
      have hlt := (List.getElem?_eq_some_iff.mp hbi).1
      have hi := hI _ b hbi
      rw [fill_orderIndex, show (rest fee book o).orderIndex = book.length from fill_orderIndex _ _]
      omega
    have hins := hline.insert (s := fun a b => rank side a.unitPrice < rank side b.unitPrice)
      (fun h => Int.lt_irrefl _ (hless _ h)) fun b hb => by
        have hlt := hless b hb
        unfold Precedes
        omega
    rw [lineOf_eq (hA.indexed hI) (l := _)
      ⟨hins.sorted, hins.nodup, fun b => (hins.mem b).trans ?_⟩]
    · refine List.map_orderedInsert _ _ _ _ _ (fun a ha => ?_) fun a ha => ?_
      · obtain ⟨b, hb, hrem⟩ := (hline.mem a).mp ha
        obtain ⟨rfl, _⟩ := remains_some.mp hrem
        show _ ↔ rank (b.fill _).orderType _ < rank (rest fee book o).orderType _
        rw [hr.1, fill_orderType, hb.2.1]
        rfl
      · obtain ⟨b, hb, hrem⟩ := (hline.mem a).mp ha
        obtain ⟨rfl, _⟩ := remains_some.mp hrem
        show _ ↔ rank (rest fee book o).orderType _ < rank (b.fill _).orderType _
        rw [hr.1, fill_orderType, hb.2.1]
        rfl
    · rw [hA.inLine hI, or_comm]
      exact or_congr_right ⟨fun h => ⟨h, h ▸ hr⟩, fun h => h.1⟩
  · rename_i hr
    rw [lineOf_eq (hA.indexed hI) ⟨hline.sorted, hline.nodup, fun b => (hline.mem b).trans ?_⟩]
    rw [hA.inLine hI]
    exact ⟨Or.inl, fun h => h.elim id fun h => absurd (h.1 ▸ h.2) hr⟩

/-- An order of a line as the one that arrives meets it. -/
theorem onWalk_of_inLine (hB : BookInOrder book) {b : Order}
    (hb : InLine o.orderType.other x book b) : OnWalk o book.length b := by
  have hbi := getElem?_index hB.index hb.1
  exact ⟨hb.2.1, hb.2.2.2, hB.positive _ b hbi hb.2.2.2,
    Nat.ne_of_lt (List.getElem?_eq_some_iff.mp hbi).1⟩

/-- The orders of a line the new order does not trade in. -/
theorem line_untouched (fee : Int → Int) (hB : BookInOrder book)
    (h : ∀ b, InLine side x book b → ¬ Crossing o.orderType.other o.item o.unitPrice b) :
    (lineOf side x book).filterMap (remains (arrivalTrades fee book.length book o)) =
      lineOf side x book := by
  refine filterMap_remains (fun c hc => ?_) fun c hc => ?_
  · have hl := ((lined_lineOf hB.index side x).mem c).mp hc
    exact ⟨hl.2.2.2, hB.positive _ c (getElem?_index hB.index hl.1) hl.2.2.2⟩
  · have hl := ((lined_lineOf hB.index side x).mem c).mp hc
    exact traded_of_not_crossing hB.index hl.1 (h c hl)

/-- The walk of the order that arrives, in the line of the other side. -/
theorem Arrived.walk (hA : Arrived fee book o book') (hB : BookInOrder book) :
    (quote o).walk ((lineOf o.orderType.other o.item book).map quote) =
      ((arrivalTrades fee book.length book o).filterMap (dealOf book'), quote (rest fee book o),
        ((lineOf o.orderType.other o.item book).filterMap
          (remains (arrivalTrades fee book.length book o))).map quote) := by
  have hline := lined_lineOf hB.index o.orderType.other o.item
  have hw := walk_line fee (o := o) (r := book.length) (D := dealOf book')
    (lineOf o.orderType.other o.item book) o.quantity
    (fun b hb => onWalk_of_inLine hB ((hline.mem b).mp hb))
    (hline.nodup.imp_of_mem fun ha hb hne =>
      index_ne hB.index ((hline.mem _).mp ha).1 ((hline.mem _).mp hb).1 hne) fun b hb q p t => ?_
  · rw [← queue_eq_takeWhile hB.index] at hw
    have hrest : quote (rest fee book o) = (quote o).left (o.quantity -
        tradedQuantity book.length (arrivalTrades fee book.length book o)) := quote_fill _ _
    rw [hrest]
    exact hw
  · have hbi := getElem?_index hB.index ((hline.mem b).mp hb).1
    have hkey : Pe.keyAt book' book.length = some (o.trader, o.orderId) := by
      unfold Pe.keyAt
      rw [hA.new, Option.map_some]
      unfold rest
      rw [fill_trader, fill_orderId]
    unfold dealOf
    simp only
    rw [hkey, hA.keyAt (List.getElem?_eq_some_iff.mp hbi).1]
    unfold Pe.keyAt
    rw [hbi]
    rfl

end Arrival

/-- The trades of the log are between orders of the book. -/
def LogInBook (e : Exchange) : Prop :=
  ∀ y ∈ e.completedTrades, y.incomingOrder < e.orderbook.length ∧
    y.orderInBook < e.orderbook.length

/-- **The engine shown after an order has arrived** has been asked to enter it. -/
theorem engine_arrived {fee : Int → Int} {e e' : Exchange} {o : Order}
    (hB : BookInOrder e.orderbook) (hL : LogInBook e) (ho : o.completed = false)
    (hA : Arrived fee e.orderbook o e'.orderbook)
    (hlog : e'.completedTrades = e.completedTrades ++
      arrivalTrades fee e.orderbook.length e.orderbook o) :
    engineOf e' = (engineOf e).enter (quote o) := by
  have hw := hA.walk hB
  have hrest : ∀ side x, Resting side x (rest fee e.orderbook o) ↔
      side = o.orderType ∧ x = o.item ∧ ¬ (quote (rest fee e.orderbook o)).quantity ≤ 0 := by
    intro side x
    unfold Resting rest quote
    rw [fill_orderType, fill_item, Bool.eq_false_iff, ne_eq, fill_completed, fill_quantity]
    simp only [ho, Bool.false_eq_true, false_or, eq_comm (b := side), eq_comm (b := x)]
  refine Engine.ext (funext fun side => funext fun x => ?_) ?_
  · show (lineOf side x e'.orderbook).map quote = _
    rw [hA.line hB.index]
    show _ = if x ≠ o.item then (lineOf side x e.orderbook).map quote
      else if side ≠ o.orderType then
        ((quote o).walk ((lineOf o.orderType.other o.item e.orderbook).map quote)).2.2
      else if ((quote o).walk
          ((lineOf o.orderType.other o.item e.orderbook).map quote)).2.1.quantity ≤ 0 then
        (lineOf side x e.orderbook).map quote
      else ((lineOf side x e.orderbook).map quote).orderedInsert Quote.Ahead
        ((quote o).walk ((lineOf o.orderType.other o.item e.orderbook).map quote)).2.1
    rw [hw]
    by_cases hx : x = o.item
    · rw [if_neg (not_not_intro hx)]
      by_cases hs : side = o.orderType
      · -- its own line
        have hown : ∀ b, InLine side x e.orderbook b →
            ¬ Crossing o.orderType.other o.item o.unitPrice b :=
          fun b hb hc => o.orderType.other_ne (hc.1.1.symm.trans (hb.2.1.trans hs))
        rw [if_neg (not_not_intro hs), line_untouched fee hB hown]
        by_cases hq : (quote (rest fee e.orderbook o)).quantity ≤ 0
        · rw [if_neg fun h => ((hrest side x).mp h).2.2 hq, if_pos hq]
        · rw [if_pos ((hrest side x).mpr ⟨hs, hx, hq⟩), if_neg hq]
      · -- the line of the other side
        rw [if_pos hs, if_neg fun h => hs ((hrest side x).mp h).1, hx,
          OrderType.eq_other_of_ne hs]
    · -- another product
      rw [if_pos hx, if_neg fun h => hx ((hrest side x).mp h).2.1,
        line_untouched fee hB fun b hb hc => hx (hb.2.2.1.symm.trans hc.1.2.1)]
  · show e'.completedTrades.filterMap (dealOf e'.orderbook) =
      e.completedTrades.filterMap (dealOf e.orderbook) ++
        ((quote o).walk ((lineOf o.orderType.other o.item e.orderbook).map quote)).1
    rw [hw, hlog, List.filterMap_append]
    congr 1
    refine List.filterMap_congr fun y hy => ?_
    obtain ⟨h1, h2⟩ := hL y hy
    unfold dealOf
    rw [hA.keyAt h1, hA.keyAt h2]

end SysProg.Pe
