/-
  File:      SysProg/Pe/Ledger.lean
  Subject:   THE LEDGER IS THE REPLAY OF THE TRADE LOG.

  Positions are moved by `buy`, `sell` and `tax`, each with a search of its
  own through the product list. On a list of distinct names all three are
  one operation (`shift`), and the position of a trader in a product is the
  sum of its trades.

  * `settle_shifts` -- a match is three shifts;
  * `ledgerQuantity`, `ledgerBank` -- what the log says of a position;
  * `ledger_replay` -- the positions, the fee total and the zero sum, in
    every reachable state.
-/
import Mathlib.Data.List.Nodup
import SysProg.Pe.Sound

namespace SysProg.Pe

open Lib

/-! ## 1. Positions and shifts -/

/-- The pieces trader `k` holds of product number `i`. -/
def pieces (ts : List Trader) (k i : Nat) : Option Int := ts[k]?.bind (·.inventoryQuantity[i]?)

/-- The dollars trader `k` has made with product number `i`. -/
def dollars (ts : List Trader) (k i : Nat) : Option Int := ts[k]?.bind (·.bank[i]?)

/-- All bank entries of all traders. -/
def totalBank (ts : List Trader) : Int := (ts.map fun t => t.bank.sum).sum

theorem getElem?_modify_add (l : List Int) (i j : Nat) (d : Int) :
    (l.modify j (· + d))[i]? = l[i]?.map (· + if i = j then d else 0) := by
  by_cases h : j = i
  · subst h
    rw [List.getElem?_modify_eq, if_pos rfl]
    rfl
  · rw [List.getElem?_modify_ne _ _ h, if_neg (Ne.symm h)]
    simp

/-- A shift of one trader, read in any field. -/
theorem getElem?_bind_shift {f : Trader → List Int} {g : Trader → Trader} {j : Nat} {d : Int}
    (hg : ∀ tr, f (g tr) = (f tr).modify j (· + d)) (ts : List Trader) (t k i : Nat) :
    ((ts.modify t g)[k]?.bind fun tr => (f tr)[i]?) =
      (ts[k]?.bind fun tr => (f tr)[i]?).map (· + if k = t ∧ i = j then d else 0) := by
  by_cases h : t = k
  · subst h
    rw [List.getElem?_modify_eq]
    cases ts[t]? with
    | none => rfl
    | some tr =>
        show (f (g tr))[i]? = _
        rw [hg, getElem?_modify_add]
        simp
  · rw [List.getElem?_modify_ne _ _ h, if_neg fun hc => h hc.1.symm]
    simp

theorem pieces_shift (ts : List Trader) (t j k i : Nat) (dq dv : Int) :
    pieces (ts.modify t (shift j dq dv)) k i =
      (pieces ts k i).map (· + if k = t ∧ i = j then dq else 0) := by
  unfold pieces
  exact getElem?_bind_shift (fun _ => rfl) ts t k i

theorem dollars_shift (ts : List Trader) (t j k i : Nat) (dq dv : Int) :
    dollars (ts.modify t (shift j dq dv)) k i =
      (dollars ts k i).map (· + if k = t ∧ i = j then dv else 0) := by
  unfold dollars
  exact getElem?_bind_shift (fun _ => rfl) ts t k i

theorem sum_map_modify {α : Type*} (f : α → Int) (g : α → α) :
    ∀ {l : List α} {i : Nat} {x : α}, l[i]? = some x →
      ((l.modify i g).map f).sum = (l.map f).sum + (f (g x) - f x)
  | [], _, _, h => by simp at h
  | y :: l, 0, x, h => by
      have e : y = x := by simpa using h
      subst e
      simp only [List.modify_zero_cons, List.map_cons, List.sum_cons]
      omega
  | y :: l, i + 1, x, h => by
      have ih := sum_map_modify f g (l := l) (i := i) (x := x) (by simpa using h)
      simp only [List.modify_succ_cons, List.map_cons, List.sum_cons, ih]
      omega

theorem totalBank_shift {ts : List Trader} {t j : Nat} {tr : Trader} (dq dv : Int)
    (ht : ts[t]? = some tr) (hj : j < tr.bank.length) :
    totalBank (ts.modify t (shift j dq dv)) = totalBank ts + dv := by
  unfold totalBank
  rw [sum_map_modify _ _ ht]
  have h := sum_map_modify id (· + dv) (List.getElem?_eq_getElem hj)
  simp only [List.map_id, id] at h
  show _ + ((tr.bank.modify j (· + dv)).sum - tr.bank.sum) = _
  omega

/-! ## 2. A match is three shifts -/

theorem productPos_lt {products : List Word} {x : Word} (hx : x ∈ products) :
    productPos products x < products.length :=
  List.findIdx_lt_length_of_exists ⟨x, hx, by simp⟩

theorem getElem_productPos {products : List Word} {x : Word}
    (h : productPos products x < products.length) : products[productPos products x] = x :=
  of_decide_eq_true (List.findIdx_getElem (w := h))

/-- On distinct names a product has one number. -/
theorem productPos_eq {products : List Word} (hnd : products.Nodup) {x : Word} {i : Nat}
    (hi : i < products.length) : productPos products x = i ↔ products[i]? = some x := by
  rw [List.getElem?_eq_getElem hi, Option.some.injEq]
  constructor
  · intro h
    subst h
    exact getElem_productPos hi
  · intro h
    have hx : x ∈ products := h ▸ List.getElem_mem hi
    have hget := getElem_productPos (productPos_lt hx)
    exact (List.Nodup.getElem_inj_iff hnd).mp (hget.trans h.symm)

/-- `tax` is a shift, once the names are distinct. -/
theorem tax_eq_shift {products : List Word} (hnd : products.Nodup) {t : Trader} {x : Word}
    (tx : Int) (hw : t.bank.length = products.length) :
    tax products t tx x = shift (productPos products x) 0 (-tx) t := by
  have hq : t.inventoryQuantity.modify (productPos products x) (· + 0) = t.inventoryQuantity := by
    refine List.ext_getElem? fun i => ?_
    rw [getElem?_modify_add]
    simp
  have hb : (t.bank.mapIdx fun i v => if products[i]? = some x then v - tx else v) =
      t.bank.modify (productPos products x) (· + -tx) := by
    refine List.ext_getElem? fun i => ?_
    rw [getElem?_modify_add, List.getElem?_mapIdx]
    by_cases hi : i < products.length
    · by_cases hp : productPos products x = i
      · rw [(productPos_eq hnd hi).mp hp, if_pos hp.symm]
        simp [Int.sub_eq_add_neg]
      · have hne : products[i]? ≠ some x := fun h => hp ((productPos_eq hnd hi).mpr h)
        simp [hne, Ne.symm hp]
    · rw [List.getElem?_eq_none (l := t.bank) (by omega)]
      rfl
  unfold tax shift
  rw [hb, hq]

theorem modify_congr {α : Type*} {l : List α} {i : Nat} {f g : α → α}
    (h : ∀ x, l[i]? = some x → f x = g x) : l.modify i f = l.modify i g := by
  refine List.ext_getElem? fun j => ?_
  by_cases hj : i = j
  · subst hj
    rw [List.getElem?_modify_eq, List.getElem?_modify_eq]
    cases hx : l[i]? with
    | none => rfl
    | some x => exact congrArg some (h x hx)
  · rw [List.getElem?_modify_ne _ _ hj, List.getElem?_modify_ne _ _ hj]

/-- **A match is three shifts.** -/
theorem settle_shifts {products : List Word} (hnd : products.Nodup) {ts : List Trader}
    (hw : ∀ (k : Nat) (t : Trader), ts[k]? = some t → t.bank.length = products.length)
    (side : OrderType) (o best : Order) (q p tx : Int) :
    settle products side o best q p tx ts =
      ((ts.modify o.trader
        (shift (productPos products o.item) (signedQ side q) (signedV side (p * q)))).modify best.trader
        (shift (productPos products best.item) (signedQ side.other q)
          (signedV side.other (p * q)))).modify (payer o best).trader
        (shift (productPos products (payer o best).item) 0 (-tx)) := by
  unfold settle
  refine modify_congr fun t ht => tax_eq_shift hnd tx ?_
  obtain ⟨t₁, h₁, s₁⟩ := steady_modify (steady_shift _ _ _) ht
  obtain ⟨t₀, h₀, s₀⟩ := steady_modify (steady_shift _ _ _) h₁
  rw [(s₀.trans s₁).banks]
  exact hw _ t₀ h₀

/-! ## 3. What the log says -/

/-- The order of one side of a trade. -/
def ofSide (side : OrderType) (o b : Order) : Order := if o.orderType = side then o else b

/-- The sum of `f` over the trades of which the order picked belongs to trader `t` and is one
    for product `x`. -/
def sumOver (pick : Order → Order → Order) (book : List Order) (t : Nat) (x : Word)
    (f : Trade → Int) (ts : List Trade) : Int :=
  (ts.map fun y =>
    match book[y.incomingOrder]?, book[y.orderInBook]? with
    | some o, some b => if (pick o b).trader = t ∧ (pick o b).item = x then f y else 0
    | _, _ => 0).sum

/-- Bought minus sold. -/
def ledgerQuantity (e : Exchange) (t : Nat) (x : Word) : Int :=
  sumOver (ofSide .BUY) e.orderbook t x (·.transactionQuantity) e.completedTrades -
    sumOver (ofSide .SELL) e.orderbook t x (·.transactionQuantity) e.completedTrades

/-- The value of the sells, minus that of the buys, minus the fees of the trades whose later
    order is the trader's. -/
def ledgerBank (e : Exchange) (t : Nat) (x : Word) : Int :=
  sumOver (ofSide .SELL) e.orderbook t x (fun y => y.transactionQuantity * y.transactionPrice)
      e.completedTrades -
    sumOver (ofSide .BUY) e.orderbook t x (fun y => y.transactionQuantity * y.transactionPrice)
      e.completedTrades -
    sumOver payer e.orderbook t x (·.tax) e.completedTrades

/-- The choice looks only at what an order keeps. -/
def Stable (pick : Order → Order → Order) : Prop :=
  ∀ o o' b b', Evolves o o' → Evolves b b' → Evolves (pick o b) (pick o' b')

theorem stable_ofSide (side : OrderType) : Stable (ofSide side) := by
  intro o o' b b' ho hb
  unfold ofSide
  rw [ho.orderType]
  split
  · exact ho
  · exact hb

theorem stable_payer : Stable payer := by
  intro o o' b b' ho hb
  unfold payer
  rw [ho.orderIndex, hb.orderIndex]
  split
  · exact ho
  · exact hb

/-- The trades already in the log count the same after the book has grown. -/
theorem sumOver_grows {pick : Order → Order → Order} (hp : Stable pick) {ob ob' : List Order}
    (hg : Grows ob ob') {t : Nat} {x : Word} {f : Trade → Int} {ts : List Trade}
    (hts : ∀ y ∈ ts, ∃ o b, ob[y.incomingOrder]? = some o ∧ ob[y.orderInBook]? = some b ∧
      b.orderType = o.orderType.other) :
    sumOver pick ob' t x f ts = sumOver pick ob t x f ts := by
  unfold sumOver
  refine congrArg List.sum (List.map_congr_left fun y hy => ?_)
  obtain ⟨o, b, ho, hb, _⟩ := hts y hy
  obtain ⟨o', ho', hoe⟩ := hg _ o ho
  obtain ⟨b', hb', hbe⟩ := hg _ b hb
  have h := hp o o' b b' hoe hbe
  simp only [ho, hb, ho', hb', h.trader, h.item]

theorem sumOver_append (pick : Order → Order → Order) (ob : List Order) (t : Nat) (x : Word)
    (f : Trade → Int) (ts us : List Trade) :
    sumOver pick ob t x f (ts ++ us) = sumOver pick ob t x f ts + sumOver pick ob t x f us := by
  simp [sumOver]

theorem sumOver_one {pick : Order → Order → Order} (hp : Stable pick) {ob ob' : List Order}
    (hg : Grows ob ob') {t : Nat} {x : Word} {f : Trade → Int} {y : Trade} {o b : Order}
    (ho : ob[y.incomingOrder]? = some o) (hb : ob[y.orderInBook]? = some b) :
    sumOver pick ob' t x f [y] = if (pick o b).trader = t ∧ (pick o b).item = x then f y else 0 := by
  obtain ⟨o', ho', hoe⟩ := hg _ o ho
  obtain ⟨b', hb', hbe⟩ := hg _ b hb
  have h := hp o o' b b' hoe hbe
  simp only [sumOver, List.map_cons, List.map_nil, List.sum_cons, List.sum_nil, ho', hb', h.trader,
    h.item, Int.add_zero]

/-! ## 4. The invariant -/

structure Ledger (e : Exchange) : Prop where
  names : e.products.Nodup
  quantity : ∀ (t i : Nat) (x : Word), t < e.traders.length → e.products[i]? = some x →
    pieces e.traders t i = some (ledgerQuantity e t x)
  bank : ∀ (t i : Nat) (x : Word), t < e.traders.length → e.products[i]? = some x →
    dollars e.traders t i = some (ledgerBank e t x)
  fees : e.transactionFee = (e.completedTrades.map (·.tax)).sum
  zero : totalBank e.traders + e.transactionFee = 0

section Match

variable {fee : Int → Int} {e : Exchange} {side : OrderType} {r b : Nat} {o best : Order}

/-- The new trade of a match, as the log counts it. -/
theorem sumOver_match {pick : Order → Order → Order} (hp : Stable pick) (hS : Sound e)
    (h : Match e side r b o best) (t : Nat) (x : Word) (f : Trade → Int) :
    sumOver pick (applyMatch fee e side r b o best).orderbook t x f
        (applyMatch fee e side r b o best).completedTrades =
      sumOver pick e.orderbook t x f e.completedTrades +
        if (pick o best).trader = t ∧ (pick o best).item = x then f (matchTrade fee r b o best)
        else 0 := by
  show sumOver pick _ t x f (e.completedTrades ++ [_]) = _
  rw [sumOver_append, sumOver_grows hp (grows_match fee h) hS.trades,
    sumOver_one hp (grows_match fee h) h.incoming h.inBook]

theorem ofSide_own (h : Match e side r b o best) : ofSide side o best = o := if_pos h.ownSide

theorem ofSide_other (h : Match e side r b o best) : ofSide side.other o best = best :=
  if_neg fun hc => side.other_ne (hc.symm.trans h.ownSide)

theorem payer_cases (o best : Order) : payer o best = o ∨ payer o best = best := by
  unfold payer
  split
  · exact Or.inl rfl
  · exact Or.inr rfl

/-- A position moves if the order is the trader's and for that product. -/
theorem position_iff {products : List Word} (hnd : products.Nodup) (y : Order) (t : Nat) {i : Nat}
    {x : Word} (hx : products[i]? = some x) :
    (t = y.trader ∧ i = productPos products y.item) ↔ (y.trader = t ∧ y.item = x) := by
  have hi := (List.getElem?_eq_some_iff.mp hx).1
  have hp := productPos_eq hnd (x := y.item) hi
  rw [hx, Option.some.injEq] at hp
  constructor
  · intro h
    obtain ⟨rfl, rfl⟩ := h
    exact ⟨rfl, (hp.mp rfl).symm⟩
  · intro h
    obtain ⟨rfl, rfl⟩ := h
    exact ⟨rfl, (hp.mpr rfl).symm⟩

theorem totalBank_shift_product {products : List Word} {ts : List Trader} {k : Nat} {y : Word}
    (hk : k < ts.length) (hy : y ∈ products)
    (hw : ∀ (k : Nat) (t : Trader), ts[k]? = some t → t.bank.length = products.length)
    (dq dv : Int) :
    totalBank (ts.modify k (shift (productPos products y) dq dv)) = totalBank ts + dv := by
  have hk' := List.getElem?_eq_getElem hk
  exact totalBank_shift dq dv hk' (by rw [hw k _ hk']; exact productPos_lt hy)

theorem bank_length_shift {ts : List Trader} {n k j : Nat} {dq dv : Int}
    (hw : ∀ (k : Nat) (t : Trader), ts[k]? = some t → t.bank.length = n) (k' : Nat) (t : Trader)
    (ht : (ts.modify k (shift j dq dv))[k']? = some t) : t.bank.length = n := by
  obtain ⟨t₀, h₀, s₀⟩ := steady_modify (steady_shift _ _ _) ht
  rw [s₀.banks]
  exact hw k' t₀ h₀

/-- What the traders lose to a match is its fee. -/
theorem totalBank_match (hS : Sound e) (hnd : e.products.Nodup) (h : Match e side r b o best) :
    totalBank (applyMatch fee e side r b o best).traders =
      totalBank e.traders - fee (matchAmount o best * best.unitPrice) := by
  have hw := fun k t ht => (hS.width k t ht).2
  have ho := hS.item r o h.incoming
  have hb := hS.item b best h.inBook
  have hpayer : (payer o best).trader < e.traders.length ∧ (payer o best).item ∈ e.products := by
    rcases payer_cases o best with hc | hc <;> rw [hc]
    · exact ⟨hS.owner r o h.incoming, ho⟩
    · exact ⟨hS.owner b best h.inBook, hb⟩
  show totalBank (settle e.products side o best _ _ _ e.traders) = _
  rw [settle_shifts hnd hw,
    totalBank_shift_product (by simpa using hpayer.1) hpayer.2
      (bank_length_shift (bank_length_shift hw)),
    totalBank_shift_product (by simpa using hS.owner b best h.inBook) hb (bank_length_shift hw),
    totalBank_shift_product (hS.owner r o h.incoming) ho hw]
  cases side <;> simp only [signedV, OrderType.other] <;> omega

/-- **A match moves the positions as the log says.** -/
theorem ledger_match (hS : Sound e) (hL : Ledger e) (h : Match e side r b o best) :
    Ledger (applyMatch fee e side r b o best) := by
  have hshift := settle_shifts hL.names (fun k t ht => (hS.width k t ht).2) side o best
    (matchAmount o best) best.unitPrice (fee (matchAmount o best * best.unitPrice))
  have hown := ofSide_own h
  have hother := ofSide_other h
  refine ⟨hL.names, fun t i x ht hx => ?_, fun t i x ht hx => ?_, ?_, ?_⟩
  · rw [applyMatch_traders_length] at ht
    show pieces (settle e.products side o best _ _ _ e.traders) t i = _
    rw [hshift, pieces_shift, pieces_shift, pieces_shift, hL.quantity t i x ht hx]
    simp only [Option.map_some, position_iff hL.names _ t hx, ledgerQuantity, sumOver_match (stable_ofSide _) hS h,
      ite_self, Int.add_zero]
    refine congrArg some ?_
    cases side with
    | BUY =>
        simp only [OrderType.other] at hother
        rw [hown, hother]
        simp only [signedQ, OrderType.other, matchTrade]
        split <;> split <;> omega
    | SELL =>
        simp only [OrderType.other] at hother
        rw [hown, hother]
        simp only [signedQ, OrderType.other, matchTrade]
        split <;> split <;> omega
  · rw [applyMatch_traders_length] at ht
    show dollars (settle e.products side o best _ _ _ e.traders) t i = _
    rw [hshift, dollars_shift, dollars_shift, dollars_shift, hL.bank t i x ht hx]
    simp only [Option.map_some, position_iff hL.names _ t hx, ledgerBank, sumOver_match (stable_ofSide _) hS h,
      sumOver_match stable_payer hS h]
    refine congrArg some ?_
    have hcomm : best.unitPrice * matchAmount o best = matchAmount o best * best.unitPrice :=
      Int.mul_comm _ _
    cases side with
    | BUY =>
        simp only [OrderType.other] at hother
        rw [hown, hother]
        simp only [signedV, OrderType.other, matchTrade, hcomm]
        split <;> split <;> split <;> omega
    | SELL =>
        simp only [OrderType.other] at hother
        rw [hown, hother]
        simp only [signedV, OrderType.other, matchTrade, hcomm]
        split <;> split <;> split <;> omega
  · show e.transactionFee + _ = ((e.completedTrades ++ [_]).map _).sum
    rw [List.map_append, List.sum_append, hL.fees]
    simp [matchTrade]
  · rw [totalBank_match hS hL.names h]
    show _ + (e.transactionFee + _) = 0
    have hz := hL.zero
    omega

end Match

/-- Everything but a match leaves log and positions alone. -/
theorem ledger_of_positions {e e' : Exchange} (hS : Sound e) (hL : Ledger e)
    (hg : Grows e.orderbook e'.orderbook) (hp : e'.products = e.products)
    (hlog : e'.completedTrades = e.completedTrades) (hfee : e'.transactionFee = e.transactionFee)
    (ht : e'.traders.map (fun t => (t.inventoryQuantity, t.bank)) =
      e.traders.map fun t => (t.inventoryQuantity, t.bank)) : Ledger e' := by
  have hlen : e'.traders.length = e.traders.length := by
    have := congrArg List.length ht
    simpa using this
  have hq : ∀ t i, pieces e'.traders t i = pieces e.traders t i := by
    intro t i
    have h := congrArg (fun l => l[t]?.bind fun p => p.1[i]?) ht
    simp only [List.getElem?_map, Option.bind_map] at h
    exact h
  have hd : ∀ t i, dollars e'.traders t i = dollars e.traders t i := by
    intro t i
    have h := congrArg (fun l => l[t]?.bind fun p => p.2[i]?) ht
    simp only [List.getElem?_map, Option.bind_map] at h
    exact h
  refine ⟨hp ▸ hL.names, fun t i x hlt hx => ?_, fun t i x hlt hx => ?_, ?_, ?_⟩
  · rw [hq, hL.quantity t i x (hlen ▸ hlt) (hp ▸ hx)]
    unfold ledgerQuantity
    rw [hlog, sumOver_grows (stable_ofSide _) hg hS.trades, sumOver_grows (stable_ofSide _) hg hS.trades]
  · rw [hd, hL.bank t i x (hlen ▸ hlt) (hp ▸ hx)]
    unfold ledgerBank
    rw [hlog, sumOver_grows (stable_ofSide _) hg hS.trades,
      sumOver_grows (stable_ofSide _) hg hS.trades, sumOver_grows stable_payer hg hS.trades]
  · rw [hfee, hlog, hL.fees]
  · have h := congrArg (fun l => (l.map fun p => p.2.sum).sum) ht
    simp only [List.map_map] at h
    rw [hfee, ← hL.zero]
    exact congrArg (· + e.transactionFee) h

theorem ledger_next (fee : Int → Int) {m : Main} (hS : Sound m.exchange) (hL : Ledger m.exchange)
    (i : Input) : Ledger (mainNext fee m i).exchange := by
  refine (mainNext_inv (I := Ledger) (fun e side r b o best hS hL hM => ledger_match hS hL hM) hS
    ?_ ?_ ?_ ?_ ?_).2
  · intro t o _ _
    refine ledger_of_positions hS hL (grows_append _ _) rfl rfl rfl ?_
    show (m.exchange.traders.modify t _).map _ = _
    refine map_modify_same (fun _ => ?_) _ _
    rfl
  · intro t k o old _ hold
    refine ledger_of_positions hS hL (grows_replace hold) rfl rfl rfl ?_
    show (m.exchange.traders.modify t _).map _ = _
    refine map_modify_same (fun _ => ?_) _ _
    rfl
  · exact fun _ => hL
  · intro r o _ hr ho
    exact ledger_of_positions hS hL (grows_close hr ho) rfl rfl rfl rfl
  · intro pid _
    refine ledger_of_positions hS hL (Grows.refl _) rfl rfl rfl ?_
    exact markTraders_map (fun _ => rfl) m.exchange pid

/-! ## 5. Every reachable state -/

theorem ledger_init {products : List Word} (hnd : products.Nodup) (pids : List Nat)
    (argv : List Word) : Ledger (mainInit products pids argv).exchange := by
  have hget : ∀ (t i : Nat) (x : Word), t < (mainInit products pids argv).exchange.traders.length →
      products[i]? = some x → ∃ pid, (mainInit products pids argv).exchange.traders[t]? =
        some (instTrader pid products.length) ∧ i < products.length := by
    intro t i x ht hx
    simp only [mainInit, List.length_map] at ht
    refine ⟨pids[t], ?_, (List.getElem?_eq_some_iff.mp hx).1⟩
    simp only [mainInit, List.getElem?_map, List.getElem?_eq_getElem ht, Option.map_some]
  refine ⟨hnd, fun t i x ht hx => ?_, fun t i x ht hx => ?_, rfl, ?_⟩
  · obtain ⟨pid, htr, hi⟩ := hget t i x ht hx
    rw [pieces, htr]
    simp [instTrader, hi, ledgerQuantity, sumOver, mainInit]
  · obtain ⟨pid, htr, hi⟩ := hget t i x ht hx
    rw [dollars, htr]
    simp [instTrader, hi, ledgerBank, sumOver, mainInit]
  · simp [totalBank, mainInit, instTrader, Function.comp_def]

theorem ledger_run (fee : Int → Int) {products : List Word} (hnd : products.Nodup)
    (pids : List Nat) (argv : List Word) (is : List Input) :
    Ledger (mainRun fee products pids argv is).exchange :=
  reachable_inv (I := fun m => Ledger m.exchange) (ledger_init hnd pids argv)
    (fun _ i hok h => ledger_next fee hok.sound h i) is

/-- **The ledger is the replay of the trade log**, for every list of distinct product names and
    every sequence of commands: quantities, bank entries, the fee total, and the zero sum. -/
theorem ledger_replay (fee : Int → Int) (products : List Word) (hnd : products.Nodup)
    (pids : List Nat) (argv : List Word) (is : List Input) :
    let e := (mainRun fee products pids argv is).exchange
    (∀ (t i : Nat) (tr : Trader) (x : Word), e.traders[t]? = some tr → products[i]? = some x →
      tr.inventoryQuantity[i]? = some (ledgerQuantity e t x) ∧
      tr.bank[i]? = some (ledgerBank e t x)) ∧
    e.transactionFee = (e.completedTrades.map (·.tax)).sum ∧
    (e.traders.map fun t => t.bank.sum).sum + e.transactionFee = 0 := by
  intro e
  have hL : Ledger e := ledger_run fee hnd pids argv is
  have hp : e.products = products := products_run fee products pids argv is
  refine ⟨fun t i tr x ht hx => ?_, hL.fees, hL.zero⟩
  have hlt := (List.getElem?_eq_some_iff.mp ht).1
  have hx' : e.products[i]? = some x := by rw [hp, hx]
  have h1 := hL.quantity t i x hlt hx'
  have h2 := hL.bank t i x hlt hx'
  rw [pieces, ht] at h1
  rw [dollars, ht] at h2
  exact ⟨h1, h2⟩

/-- A run with a trade: the seller of 4 at 100 has 400 dollars, the buyer, who came later, has
    paid 404 for them. -/
theorem ledger_replay_oneTrade :
    let e := (mainRun (· / 100) ["GPU".toList] [10, 11] (List.replicate 6 [])
      [.command 10 "SELL 0 GPU 4 100;".toList, .command 11 "BUY 0 GPU 4 120;".toList]).exchange
    e.traders.map (·.bank) = [[400], [-404]] ∧
    (e.traders.map fun t => t.bank.sum).sum + e.transactionFee = 0 :=
  ⟨by decide +kernel, (ledger_replay (· / 100) ["GPU".toList] (List.nodup_singleton _) [10, 11]
    (List.replicate 6 []) _).2.2⟩

end SysProg.Pe
