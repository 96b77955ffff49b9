/-
  File:      SysProg/Pe/Notify.lean
  Subject:   WHO IS WRITTEN TO, AND WHO IS SIGNALLED.

  ACCEPTED, AMENDED, CANCELLED, INVALID and the broadcasts are written and
  signalled to the same trader. The second FILL of a trade is written to the
  trader of the order in the book, and the signal goes to the trader of the
  incoming order, also when that FILL is not written because its trader has
  left. It is right only where both are the same trader.

  * `Paired` -- every write has its signal, every signal its write;
  * `paired_loop` -- the FILLs of the matching loop are paired exactly if
    each trade is one of a connected trader with itself;
  * `MeetsOwn`, `Quiet` -- that, read off the state before the command;
  * `notifications_paired` -- for every reachable state and every command.
-/
import SysProg.Pe.Numbering
import SysProg.Pe.Served

namespace SysProg.Pe

open Lib

/-! ## 1. Traces -/

/-- Each write to a trader is followed by one signal, to that trader; there is no other signal;
    and nobody marked disconnected is written to or signalled, the sender excepted. -/
def Paired (traders : List Trader) (sender : Option Nat) : List Event → Prop
  | [] => True
  | .write t _ :: .kill pid :: es =>
      (∃ tr, traders[t]? = some tr ∧ tr.traderPid = pid ∧
        (tr.disconnected = false ∨ sender = some t)) ∧ Paired traders sender es
  | _ => False

/-- The trader whose command it is. -/
def senderOf (m : Main) : Input → Option Nat
  | .command pid _ => findTrader m.exchange.traders pid
  | .poll _ _ => none

section Traces

variable {traders : List Trader} {sender : Option Nat}

theorem paired_notify_append {t : Nat} {tr : Trader} {pid : Nat} {text : List Char}
    {es : List Event} (ht : traders[t]? = some tr) :
    Paired traders sender (notify t pid text ++ es) ↔
      (tr.traderPid = pid ∧ (tr.disconnected = false ∨ sender = some t)) ∧
        Paired traders sender es := by
  show (_ ∧ _) ↔ _
  refine and_congr_left fun _ => ⟨?_, fun h => ⟨tr, ht, h⟩⟩
  intro h
  obtain ⟨tr', ht', h⟩ := h
  rw [ht] at ht'
  cases ht'
  exact h

/-- What is paired can be put in front. -/
theorem paired_append {es : List Event} : ∀ {ds : List Event}, Paired traders sender ds →
    (Paired traders sender (ds ++ es) ↔ Paired traders sender es)
  | [], _ => Iff.rfl
  | .write t text :: .kill pid :: ds, h => by
      show (_ ∧ Paired traders sender (ds ++ es)) ↔ _
      rw [paired_append h.2]
      exact ⟨fun h' => h'.2, fun h' => ⟨h.1, h'⟩⟩

theorem paired_flatMap {α : Type*} {f : α → List Event} {l : List α}
    (h : ∀ a ∈ l, Paired traders sender (f a)) : Paired traders sender (l.flatMap f) := by
  induction l with
  | nil => trivial
  | cons a l ih =>
      obtain ⟨ha, hl⟩ := List.forall_mem_cons.mp h
      rw [List.flatMap_cons]
      exact (paired_append ha).mpr (ih hl)

/-- **The broadcast is paired.** -/
theorem paired_broadcast (s : Nat) (text : List Char) :
    Paired traders sender (broadcast traders s text) := by
  refine paired_flatMap fun a ha => ?_
  obtain ⟨t, i⟩ := a
  have hi : traders[i]? = some t := List.mk_mem_zipIdx_iff_getElem?.mp ha
  simp only
  split
  · rename_i h
    rw [← List.append_nil (notify _ _ _)]
    exact (paired_notify_append hi).mpr ⟨⟨rfl, Or.inl h.2⟩, trivial⟩
  · trivial

end Traces

/-! ## 2. What is written to a trader -/

/-- What is written to trader `t`. -/
def writtenTo (t : Nat) (es : List Event) : List (List Char) :=
  es.filterMap fun
    | .write u text => if u = t then some text else none
    | .kill _ => none

section Written

variable {fee : Int → Int} {t sender pid : Nat}

theorem mem_writtenTo {es : List Event} {text : List Char} :
    text ∈ writtenTo t es ↔ Event.write t text ∈ es := by
  unfold writtenTo
  rw [List.mem_filterMap]
  constructor
  · intro h
    obtain ⟨ev, hev, h⟩ := h
    cases ev with
    | write u text' =>
        simp only at h
        split at h
        · rename_i hu
          cases h
          rw [← hu]
          exact hev
        · cases h
    | kill p => cases h
  · exact fun h => ⟨_, h, by simp⟩

/-- A notification is for the trader it is written to. -/
theorem write_notify {text text' : List Char} :
    Event.write t text' ∈ notify sender pid text ↔ sender = t ∧ text' = text := by
  simp only [notify, List.mem_cons, Event.write.injEq, reduceCtorEq, List.not_mem_nil, or_false]
  exact and_congr_left fun _ => eq_comm

/-- The broadcast is for the others. -/
theorem write_broadcast {ts : List Trader} {text text' : List Char}
    (h : Event.write t text' ∈ broadcast ts sender text) : sender ≠ t ∧ text' = text := by
  unfold broadcast at h
  obtain ⟨⟨x, i⟩, -, h⟩ := List.mem_flatMap.mp h
  simp only at h
  split at h
  · rename_i hne
    obtain ⟨rfl, htext⟩ := write_notify.mp h
    exact ⟨Ne.symm hne.1, htext⟩
  · exact absurd h List.not_mem_nil

theorem write_fill {e : Exchange} {x : Trade} {text : List Char}
    (h : Event.write t text ∈ fillEvents e x) : ∃ i q, text = fillText i q := by
  unfold fillEvents at h
  split at h
  · split at h
    · rcases List.mem_append.mp h with h | h
      · rcases List.mem_append.mp h with h | h
        · exact ⟨_, _, (write_notify.mp h).2⟩
        · split at h
          · exact absurd h List.not_mem_nil
          · cases List.mem_singleton.mp h
            exact ⟨_, _, rfl⟩
      · cases List.mem_singleton.mp h
    · exact absurd h List.not_mem_nil
  · exact absurd h List.not_mem_nil

/-- The matching loop writes FILLs only. -/
theorem write_loop {side : OrderType} {order : Option Nat} {text : List Char} :
    ∀ (n : Nat) {r : Option Trade × Exchange},
      Event.write t text ∈ (tradeLoop fee side order n r).2.1 → ∃ i q, text = fillText i q := by
  intro n
  induction n with
  | zero =>
      intro h' h
      obtain ⟨ot, e⟩ := h'
      cases ot <;> exact absurd h List.not_mem_nil
  | succ n ih =>
      intro h' h
      obtain ⟨ot, e⟩ := h'
      cases ot with
      | none => exact absurd h List.not_mem_nil
      | some x =>
          rcases List.mem_append.mp h with h | h
          · exact write_fill h
          · exact ih h

end Written

/-! ## 3. The doors of the exchange -/

/-- Pid and flag of each trader: all that matters for who may be signalled. -/
def doors (ts : List Trader) : List (Nat × Bool) := ts.map fun t => (t.traderPid, t.disconnected)

theorem doors_getElem? {ts ts' : List Trader} (h : doors ts = doors ts') {k : Nat} {t : Trader}
    (hk : ts[k]? = some t) : ∃ t', ts'[k]? = some t' ∧ t'.traderPid = t.traderPid ∧
      t'.disconnected = t.disconnected := by
  have hd := congrArg (·[k]?) h
  simp only [doors, List.getElem?_map, hk, Option.map_some] at hd
  obtain ⟨t', ht', he⟩ := Option.map_eq_some_iff.mp hd.symm
  exact ⟨t', ht', (Prod.mk.inj he).1, (Prod.mk.inj he).2⟩

theorem paired_doors {ts ts' : List Trader} (h : doors ts = doors ts') {sender : Option Nat} :
    ∀ {es : List Event}, Paired ts sender es → Paired ts' sender es
  | [], _ => trivial
  | .write t text :: .kill pid :: es, hp => by
      obtain ⟨⟨tr, ht, hpid, hd⟩, hrest⟩ := hp
      obtain ⟨tr', ht', hpid', hd'⟩ := doors_getElem? h ht
      exact ⟨⟨tr', ht', hpid'.trans hpid, by rw [hd']; exact hd⟩, paired_doors h hrest⟩

/-- The trader is there and not marked disconnected. -/
def connected (ts : List Trader) (t : Nat) : Bool := (ts[t]?).any fun tr => !tr.disconnected

theorem connected_iff {ts : List Trader} {t : Nat} : connected ts t = true ↔
    ∃ tr, ts[t]? = some tr ∧ tr.disconnected = false := by
  unfold connected
  cases ts[t]? <;> simp

theorem connected_doors {ts ts' : List Trader} (h : doors ts = doors ts') (t : Nat) :
    connected ts t = connected ts' t := by
  refine Bool.eq_iff_iff.mpr ⟨fun hc => ?_, fun hc => ?_⟩
  · obtain ⟨tr, ht, hd⟩ := connected_iff.mp hc
    obtain ⟨tr', ht', _, hd'⟩ := doors_getElem? h ht
    exact connected_iff.mpr ⟨tr', ht', hd'.trans hd⟩
  · obtain ⟨tr, ht, hd⟩ := connected_iff.mp hc
    obtain ⟨tr', ht', _, hd'⟩ := doors_getElem? h.symm ht
    exact connected_iff.mpr ⟨tr', ht', hd'.trans hd⟩

theorem doors_modify {f : Trader → Trader}
    (hf : ∀ t, (f t).traderPid = t.traderPid ∧ (f t).disconnected = t.disconnected)
    (ts : List Trader) (k : Nat) : doors (ts.modify k f) = doors ts :=
  map_modify_same (fun t => by rw [(hf t).1, (hf t).2]) ts k

theorem doors_match {fee : Int → Int} {e : Exchange} {side : OrderType} {r b : Nat}
    {o best : Order} : doors (applyMatch fee e side r b o best).traders = doors e.traders := by
  show doors (settle e.products side o best _ _ _ e.traders) = _
  unfold settle
  rw [doors_modify, doors_modify, doors_modify]
  all_goals exact fun _ => ⟨rfl, rfl⟩

theorem doors_enter (e : Exchange) (t : Nat) (o : Order) :
    doors (enterOrder e t o).traders = doors e.traders := by
  refine doors_modify (fun _ => ?_) e.traders t
  exact ⟨rfl, rfl⟩

theorem doors_replace (e : Exchange) (t k : Nat) (o : Order) :
    doors (replaceOrder e t k o).traders = doors e.traders := by
  refine doors_modify (fun _ => ?_) e.traders t
  exact ⟨rfl, rfl⟩

/-- A command leaves the doors as they are. -/
theorem doors_command (fee : Int → Int) {m : Main} (hS : Sound m.exchange) (pid : Nat)
    (text : List Char) :
    doors (mainNext fee m (.command pid text)).exchange.traders = doors m.exchange.traders := by
  refine (mainNext_inv (I := fun e => doors e.traders = doors m.exchange.traders)
    (fun e side r b o best _ hd _ => doors_match.trans hd) hS ?_ ?_ ?_ ?_ ?_).2
  · exact fun t o _ _ => doors_enter m.exchange t o
  · exact fun t k o old _ _ => doors_replace m.exchange t k o
  · exact fun _ => rfl
  · exact fun r o _ _ _ => rfl
  · exact fun p hp => by cases hp

/-! ## 4. The FILLs of a trade -/

/-- The trader of the order at position `k`. -/
def traderAt (book : List Order) (k : Nat) : Option Nat := book[k]?.map (·.trader)

/-- A trade of a connected trader with itself. -/
def SelfTrade (ts : List Trader) (book : List Order) (x : Trade) : Prop :=
  ∃ t, traderAt book x.incomingOrder = some t ∧ traderAt book x.orderInBook = some t ∧
    connected ts t = true

theorem traderAt_grows {ob ob' : List Order} (hg : Grows ob ob') (hlen : ob'.length = ob.length)
    (k : Nat) : traderAt ob' k = traderAt ob k := by
  unfold traderAt
  cases h : ob[k]? with
  | none =>
      rw [List.getElem?_eq_none_iff] at h
      rw [List.getElem?_eq_none (by omega)]
  | some o =>
      obtain ⟨o', ho', he⟩ := hg k o h
      rw [ho', Option.map_some, Option.map_some, he.trader]

theorem selfTrade_congr {ts ts' : List Trader} {ob ob' : List Order} (hd : doors ts = doors ts')
    (hg : Grows ob ob') (hlen : ob'.length = ob.length) (x : Trade) :
    SelfTrade ts' ob' x ↔ SelfTrade ts ob x := by
  unfold SelfTrade
  simp only [traderAt_grows hg hlen, connected_doors hd]

theorem pid_inj {ts : List Trader} (hnd : (ts.map (·.traderPid)).Nodup) {j k : Nat} {t t' : Trader}
    (hj : ts[j]? = some t) (hk : ts[k]? = some t') (h : t'.traderPid = t.traderPid) : j = k := by
  have hfj := findTrader_eq (e := ⟨[], ts, [], [], 0⟩) hnd hj
  have hfk := findTrader_eq (e := ⟨[], ts, [], [], 0⟩) hnd hk
  rw [h, hfj] at hfk
  exact Option.some.inj hfk

/-- **The two FILLs are paired exactly for a trade of a connected trader with itself.** -/
theorem paired_fill {e : Exchange} {sender : Option Nat} {x : Trade} {es : List Event}
    (hB : BookOk e) (hnd : (e.traders.map (·.traderPid)).Nodup) {o b : Order}
    (ho : e.orderbook[x.incomingOrder]? = some o) (hb : e.orderbook[x.orderInBook]? = some b) :
    Paired e.traders sender (fillEvents e x ++ es) ↔
      SelfTrade e.traders e.orderbook x ∧ Paired e.traders sender es := by
  obtain ⟨t, ht⟩ : ∃ t, e.traders[o.trader]? = some t :=
    ⟨_, List.getElem?_eq_getElem (hB.owner _ o ho)⟩
  obtain ⟨t', ht'⟩ : ∃ t', e.traders[b.trader]? = some t' :=
    ⟨_, List.getElem?_eq_getElem (hB.owner _ b hb)⟩
  have hself : SelfTrade e.traders e.orderbook x ↔
      o.trader = b.trader ∧ t'.disconnected = false := by
    unfold SelfTrade traderAt
    rw [ho, hb, Option.map_some, Option.map_some]
    constructor
    · intro h
      obtain ⟨s, h1, h2, hc⟩ := h
      have h1' : o.trader = s := Option.some.inj h1
      have h2' : b.trader = s := Option.some.inj h2
      obtain ⟨tr, htr, hd⟩ := connected_iff.mp hc
      rw [← h2', ht'] at htr
      cases htr
      exact ⟨h1'.trans h2'.symm, hd⟩
    · intro h
      obtain ⟨h12, hd⟩ := h
      exact ⟨b.trader, by rw [h12], rfl, connected_iff.mpr ⟨t', ht', hd⟩⟩
  rw [hself]
  unfold fillEvents
  simp only [ho, hb, ht, ht']
  cases hd : t'.disconnected with
  | true =>
      -- the second FILL is not written, its signal is sent
      refine ⟨fun h => ?_, fun h => absurd h.1.2 (by simp)⟩
      simp only [if_true, List.append_nil, List.append_assoc] at h
      exact ((paired_notify_append ht).mp h).2.elim
  | false =>
      simp only [Bool.false_eq_true, if_false, List.append_assoc]
      rw [paired_notify_append ht]
      show _ ∧ Paired e.traders sender (notify b.trader _ _ ++ es) ↔ _
      rw [paired_notify_append ht']
      constructor
      · intro h
        obtain ⟨_, ⟨hpid, _⟩, hes⟩ := h
        exact ⟨⟨pid_inj hnd ht ht' hpid, trivial⟩, hes⟩
      · intro h
        obtain ⟨⟨h12, _⟩, hes⟩ := h
        rw [h12, ht'] at ht
        cases ht
        exact ⟨⟨rfl, Or.inl hd⟩, ⟨rfl, Or.inl hd⟩, hes⟩

/-- A call keeps the doors, the traders of the orders, and records the trade it returns. -/
theorem placeFor_frame (fee : Int → Int) (side : OrderType) (order : Option Nat) {e : Exchange}
    (hS : Sound e) : Sound (placeFor fee side e order).2 ∧
      doors (placeFor fee side e order).2.traders = doors e.traders ∧
      Grows e.orderbook (placeFor fee side e order).2.orderbook ∧
      (placeFor fee side e order).2.orderbook.length = e.orderbook.length ∧
      ∀ x, (placeFor fee side e order).1 = some x →
        x ∈ (placeFor fee side e order).2.completedTrades := by
  rcases placeFor_cases fee hS.toBookOk side order with ⟨h, _⟩ | ⟨r, b, o, best, _, hM, h⟩
  · rw [h]
    exact ⟨hS, rfl, Grows.refl _, rfl, fun x hx => by cases hx⟩
  · rw [h]
    refine ⟨sound_match hS hM, doors_match, grows_match fee hM, applyMatch_book_length, fun x hx => ?_⟩
    cases hx
    exact List.mem_append_right _ List.mem_cons_self

theorem pids_of_doors {ts ts' : List Trader} (h : doors ts = doors ts') :
    ts.map (·.traderPid) = ts'.map (·.traderPid) := by
  have hf := congrArg (List.map Prod.fst) h
  simpa [doors, Function.comp_def] using hf

/-- **The FILLs of the matching loop are paired exactly if all its trades are of connected
    traders with themselves.** -/
theorem paired_loop (fee : Int → Int) (side : OrderType) (order sender : Option Nat) :
    ∀ (n : Nat) {ot : Option Trade} {e : Exchange}, Sound e →
      (e.traders.map (·.traderPid)).Nodup → (∀ x, ot = some x → x ∈ e.completedTrades) →
      (Paired e.traders sender (tradeLoop fee side order n (ot, e)).2.1 ↔
        ∀ x ∈ (tradeLoop fee side order n (ot, e)).1, SelfTrade e.traders e.orderbook x) := by
  intro n
  induction n with
  | zero =>
      intro ot e _ _ _
      cases ot with
      | none => exact ⟨fun _ x hx => absurd hx List.not_mem_nil, fun _ => trivial⟩
      | some t => exact ⟨fun _ x hx => absurd hx List.not_mem_nil, fun _ => trivial⟩
  | succ n ih =>
      intro ot e hS hnd hlog
      cases ot with
      | none => exact ⟨fun _ x hx => absurd hx List.not_mem_nil, fun _ => trivial⟩
      | some t =>
          obtain ⟨hS', hd, hg, hlen, hlog'⟩ := placeFor_frame fee side order hS
          have hrest := ih hS'
            (by rw [pids_of_doors hd]; exact hnd) hlog'
          obtain ⟨o, b, ho, hb, _⟩ := hS.trades t (hlog t rfl)
          show Paired e.traders sender (fillEvents e t ++
            (tradeLoop fee side order n (placeFor fee side e order)).2.1) ↔
              ∀ x ∈ t :: (tradeLoop fee side order n (placeFor fee side e order)).1, _
          rw [paired_fill hS.toBookOk hnd ho hb, List.forall_mem_cons]
          refine and_congr_right fun _ => ?_
          rw [show Paired e.traders sender _ ↔ Paired (placeFor fee side e order).2.traders sender _
            from ⟨paired_doors hd.symm, paired_doors hd⟩]
          refine hrest.trans (forall₂_congr fun x _ => ?_)
          exact selfTrade_congr hd.symm hg hlen x

/-! ## 5. The condition, on the state before the command -/

/-- The orders at the front of the list that a quantity `q` gets to. -/
def reached : Int → List Order → List Order
  | _, [] => []
  | q, b :: bs => if q ≤ 0 then [] else b :: reached (q - min q b.quantity) bs

/-- Every order of the book that `o` would trade with belongs to the trader of `o`, who is
    connected. -/
def MeetsOwn (ts : List Trader) (book : List Order) (o : Order) : Prop :=
  ∀ b ∈ reached o.quantity (served o.orderType.other o.item o.unitPrice book.length book),
    b.trader = o.trader ∧ connected ts o.trader = true

instance (ts : List Trader) (book : List Order) (o : Order) : Decidable (MeetsOwn ts book o) :=
  inferInstanceAs (Decidable (∀ b ∈ _, _ ∧ _))

/-- The command enters no order, or what it enters meets orders of its own trader only. After an
    amended order has traded once, with the first order it meets, the same goes for the order that
    `order` points to, if that is another open order of the same side. -/
def Quiet (m : Main) (i : Input) : Prop :=
  match entryOf m i with
  | .none => True
  | .new _ o => MeetsOwn m.exchange.traders m.exchange.orderbook o
  | .amended t k o =>
      match served o.orderType.other o.item o.unitPrice m.exchange.orderbook.length
          m.exchange.orderbook with
      | [] => True
      | b :: _ => (b.trader = t ∧ connected m.exchange.traders t = true) ∧
          ∀ r ∈ m.order, ∀ x ∈ m.exchange.orderbook[r]?, r ≠ k → x.orderType = o.orderType →
            x.completed = false → MeetsOwn m.exchange.traders
              (m.exchange.orderbook.modify b.orderIndex.toNat
                (Order.fill (min o.quantity b.quantity))) x

instance (m : Main) (i : Input) : Decidable (Quiet m i) := by
  unfold Quiet
  exact match entryOf m i with
    | .none => instDecidableTrue
    | .new _ o =>
        inferInstanceAs (Decidable (MeetsOwn m.exchange.traders m.exchange.orderbook o))
    | .amended _ _ o => by
        dsimp only
        exact match served o.orderType.other o.item o.unitPrice m.exchange.orderbook.length
            m.exchange.orderbook with
          | [] => instDecidableTrue
          | _ :: _ => by
              dsimp only
              infer_instance

theorem referenceTrades_forall {fee : Int → Int} {r : Nat} {P : Nat → Nat → Prop} :
    ∀ (l : List Order) (q : Int),
      (∀ x ∈ referenceTrades fee r q l, P x.incomingOrder x.orderInBook) ↔
        ∀ b ∈ reached q l, P r b.orderIndex.toNat := by
  intro l
  induction l with
  | nil =>
      intro q
      exact ⟨fun _ b hb => absurd hb List.not_mem_nil, fun _ x hx => absurd hx List.not_mem_nil⟩
  | cons b bs ih =>
      intro q
      rw [referenceTrades, reached]
      by_cases hq : q ≤ 0
      · rw [if_pos hq, if_pos hq]
        exact ⟨fun _ b hb => absurd hb List.not_mem_nil, fun _ x hx => absurd hx List.not_mem_nil⟩
      · rw [if_neg hq, if_neg hq, List.forall_mem_cons, List.forall_mem_cons, ih]

theorem reached_mem {l : List Order} {q : Int} {b : Order} (h : b ∈ reached q l) : b ∈ l := by
  induction l generalizing q with
  | nil => exact h
  | cons c cs ih =>
      rw [reached] at h
      split at h
      · exact absurd h List.not_mem_nil
      · rcases List.mem_cons.mp h with rfl | h
        · exact List.mem_cons_self
        · exact List.mem_cons_of_mem _ (ih h)

/-- The trades of a sweep are of one connected trader exactly if the order meets its own in any
    book that looks the same. -/
theorem sweep_meetsOwn {fee : Int → Int} {side : OrderType} {r : Nat} {e e' : Exchange} {o : Order}
    {ts : List Trade} {traders : List Trader} {book : List Order}
    (h : Sweep fee side (some r) e ts e') (hB : BookOk e) (hr : e.orderbook[r]? = some o)
    (hs : o.orderType = side) (ho : o.completed = false)
    (ha : AgreeOn (openOf side.other) book e.orderbook) (hd : doors e.traders = doors traders) :
    (∀ x ∈ ts, SelfTrade e.traders e.orderbook x) ↔ MeetsOwn traders book o := by
  have hfuel : e.orderbook.countP (openOf side.other) ≤ book.length := by
    rw [List.countP_eq_length_filter, ← filter_agree (fun _ hx => hx) ha]
    exact List.length_filter_le _ _
  obtain ⟨e'', hs'⟩ := sweep_served fee book.length hB hfuel hr hs
    (fun hc => by rw [ho] at hc; cases hc)
  rw [(repeats_unique h hs').1, ← served_congr _ _ _ ha]
  unfold MeetsOwn SelfTrade
  rw [hs, referenceTrades_forall (P := fun j k => ∃ t, traderAt e.orderbook j = some t ∧
    traderAt e.orderbook k = some t ∧ connected e.traders t = true)]
  refine forall₂_congr fun b hb => ?_
  obtain ⟨hmem, hopen⟩ := served_mem _ (reached_mem hb)
  obtain ⟨k, hk⟩ := List.mem_iff_getElem?.mp hmem
  have hk' := ha.getElem? hk hopen
  have hbk : traderAt e.orderbook b.orderIndex.toNat = some b.trader := by
    rw [hB.index k b hk', Int.toNat_natCast, traderAt, hk']
    rfl
  have hro : traderAt e.orderbook r = some o.trader := by
    rw [traderAt, hr]
    rfl
  rw [hbk, hro, connected_doors hd.symm]
  constructor
  · intro h
    obtain ⟨t, h1, h2, hc⟩ := h
    cases h1
    exact ⟨Option.some.inj h2, hc⟩
  · intro h
    obtain ⟨h12, hc⟩ := h
    exact ⟨o.trader, rfl, by rw [h12], hc⟩

/-! ## 6. The branches of the switch -/

section Branches

variable {fee : Int → Int} {m : Main} {sender pid : Nat} {tr : Trader} {argv : List Word}

/-- The first message of a branch, to the sender. -/
theorem paired_first (htr : m.exchange.traders[sender]? = some tr) (hpid : tr.traderPid = pid)
    (text : List Char) {es : List Event} :
    Paired m.exchange.traders (some sender) (notify sender pid text ++ es) ↔
      Paired m.exchange.traders (some sender) es := by
  rw [paired_notify_append htr]
  exact ⟨fun h => h.2, fun h => ⟨⟨hpid, Or.inr rfl⟩, h⟩⟩

theorem paired_alone (htr : m.exchange.traders[sender]? = some tr) (hpid : tr.traderPid = pid)
    (text : List Char) : Paired m.exchange.traders (some sender) (notify sender pid text) := by
  rw [← List.append_nil (notify _ _ _)]
  exact (paired_first htr hpid text).mpr trivial

/-- The first message, a broadcast, and the FILLs: the FILLs decide. -/
theorem paired_branch (htr : m.exchange.traders[sender]? = some tr) (hpid : tr.traderPid = pid)
    {ts : List Trader} (hd : doors ts = doors m.exchange.traders) (text text' : List Char)
    {es : List Event} :
    Paired m.exchange.traders (some sender)
        (notify sender pid text ++ broadcast ts sender text' ++ es) ↔
      Paired ts (some sender) es := by
  rw [List.append_assoc, paired_first htr hpid text,
    paired_append (paired_doors hd (paired_broadcast sender text'))]
  exact ⟨paired_doors hd.symm, paired_doors hd⟩

theorem paired_new {o : Order} (hS : Sound m.exchange)
    (hnd : (m.exchange.traders.map (·.traderPid)).Nodup)
    (htr : m.exchange.traders[sender]? = some tr) (hpid : tr.traderPid = pid)
    (hF : Fresh m.exchange sender o)
    (hnew : newOrder argv sender tr (orderTypeOf (argAt argv 0)) = some o) :
    Paired m.exchange.traders (some sender) (orderReceived fee m argv sender pid tr).2 ↔
      MeetsOwn m.exchange.traders m.exchange.orderbook o := by
  have hS₁ := sound_enter hS hF
  have hd := doors_enter m.exchange sender o
  obtain ⟨hS₂, hd₂, hg, hlen, hlog⟩ := placeFor_frame fee o.orderType
    (some m.exchange.orderbook.length) hS₁
  rw [orderReceived_some hnew]
  simp only
  rw [paired_branch htr hpid hd,
    show Paired (enterOrder m.exchange sender o).traders _ _ ↔ Paired (placeFor fee o.orderType
      (enterOrder m.exchange sender o) (some m.exchange.orderbook.length)).2.traders _ _
      from ⟨paired_doors hd₂.symm, paired_doors hd₂⟩,
    paired_loop fee _ _ _ _ hS₂ (by rw [pids_of_doors hd₂, pids_of_doors hd]; exact hnd) hlog]
  have hnewAt : (enterOrder m.exchange sender o).orderbook[m.exchange.orderbook.length]? =
      some (placed m.exchange o) := by
    rw [enterOrder_book, List.getElem?_concat_length]
    rfl
  have hmeets := sweep_meetsOwn
    (tradeLoop_done fee o.orderType (some m.exchange.orderbook.length) hS₁.toBookOk)
    hS₁.toBookOk hnewAt rfl hF.isOpen (agreeOn_append m.exchange o) hd
  refine Iff.trans (forall₂_congr fun x _ => ?_) hmeets
  exact selfTrade_congr hd₂.symm hg hlen x

/-- An order that is not an open one of its side makes no trade. -/
theorem sweep_idle {side : OrderType} {order : Option Nat} {e e' : Exchange} {ts : List Trade}
    (hB : BookOk e) (hidle : ∀ r o, order = some r → e.orderbook[r]? = some o →
      openOf side o = false) (h : Sweep fee side order e ts e') : ts = [] := by
  have hnone : placeFor fee side e order = (none, e) := by
    rcases placeFor_cases fee hB side order with ⟨h', _⟩ | ⟨r, b, o, best, hr, hM, _⟩
    · exact h'
    · have hc := hidle r o hr hM.incoming
      rw [openOf_iff.mpr ⟨hM.ownSide, hM.isOpen⟩] at hc
      cases hc
  exact (repeats_unique h (.stop hnone)).1

/-- The first trade of an amended order is of one connected trader. -/
theorem selfTrade_match {e : Exchange} {side : OrderType} {r b : Nat} {o best : Order}
    {ts : List Trader} (hM : Match e side r b o best) (hd : doors e.traders = doors ts) :
    SelfTrade e.traders e.orderbook (matchTrade fee r b o best) ↔
      best.trader = o.trader ∧ connected ts o.trader = true := by
  unfold SelfTrade traderAt
  rw [show (matchTrade fee r b o best).incomingOrder = r from rfl,
    show (matchTrade fee r b o best).orderInBook = b from rfl, hM.incoming, hM.inBook]
  simp only [Option.map_some, Option.some.injEq, exists_eq_left', connected_doors hd]

/-- What an amended order and its first match leave of the other orders of its side. -/
theorem stale_order (fee : Int → Int) {e : Exchange} {t k r b : Nat} {o old best y : Order}
    (hold : AmendEntry e t k o old)
    (hM : Match (replaceOrder e t k o) o.orderType e.orderbook.length b (placed e o) best)
    (hr : e.orderbook[r]? = some y) :
    ∃ y', (applyMatch fee (replaceOrder e t k o) o.orderType e.orderbook.length b (placed e o)
        best).orderbook[r]? = some y' ∧
      ((r ≠ k ∧ y.orderType = o.orderType ∧ y.completed = false ∧ y' = y) ∨
        ¬ (r ≠ k ∧ y.orderType = o.orderType ∧ y.completed = false) ∧
          openOf o.orderType y' = false) := by
  have hrlt := (List.getElem?_eq_some_iff.mp hr).1
  have hfirst : (replaceOrder e t k o).orderbook[r]? = some (if r = k then closeOrder y else y) := by
    rw [replaceOrder_book]
    by_cases hrk : r = k
    · subst hrk
      rw [List.getElem?_modify_eq, List.getElem?_append_left hrlt, hr, if_pos rfl]
      rfl
    · rw [List.getElem?_modify_ne _ _ (Ne.symm hrk), List.getElem?_append_left hrlt, hr, if_neg hrk]
  rw [applyMatch_book hM, if_neg (by omega : ¬ r = e.orderbook.length)]
  by_cases hrb : r = b
  · -- the order in the book is of the other side
    rw [if_pos hrb]
    refine ⟨_, rfl, Or.inr ⟨fun hc => ?_, ?_⟩⟩
    · have hb := hM.inBook
      rw [← hrb, hfirst, if_neg hc.1] at hb
      cases hb
      exact o.orderType.other_ne (hM.bookSide.symm.trans hc.2.1)
    · refine openOf_of_type ?_
      rw [fill_orderType, hM.bookSide]
      exact o.orderType.other_ne
  · rw [if_neg hrb, hfirst]
    refine ⟨_, rfl, ?_⟩
    by_cases hrk : r = k
    · rw [if_pos hrk]
      exact Or.inr ⟨fun hc => hc.1 hrk, openOf_of_closed rfl⟩
    · rw [if_neg hrk]
      by_cases hc : y.orderType = o.orderType ∧ y.completed = false
      · exact Or.inl ⟨hrk, hc.1, hc.2, rfl⟩
      · refine Or.inr ⟨fun hc' => hc hc'.2, ?_⟩
        exact Bool.eq_false_iff.mpr fun h => hc (openOf_iff.mp h)

theorem agreeOn_firstMatch (fee : Int → Int) {e : Exchange} {t k b : Nat} {o old best : Order}
    (hold : AmendEntry e t k o old)
    (hM : Match (replaceOrder e t k o) o.orderType e.orderbook.length b (placed e o) best)
    (hb : e.orderbook[b]? = some best) :
    AgreeOn (openOf o.orderType.other)
      (e.orderbook.modify b (Order.fill (min o.quantity best.quantity)))
      (applyMatch fee (replaceOrder e t k o) o.orderType e.orderbook.length b (placed e o)
        best).orderbook := by
  refine ((agreeOn_replace hold).modify (Order.fill (min o.quantity best.quantity)) hb
    hM.inBook).trans (agreeOn_modify _ fun y hy => ?_)
  rw [List.getElem?_modify_ne _ _ hM.ne.symm, hM.incoming] at hy
  cases hy
  have hne : (placed e o).orderType ≠ o.orderType.other := o.orderType.other_ne.symm
  exact ⟨openOf_of_type hne, openOf_of_type (by rw [fill_orderType]; exact hne)⟩

/-- The sweep of what `order` points to, after the first trade of an amended order: its trades are
    of one connected trader exactly if the order, where it is another open one of the same side,
    meets its own. -/
theorem sweep_stale_meetsOwn {e e' : Exchange} {t k b : Nat} {o old best : Order}
    {order : Option Nat} {ts : List Trade} (hold : AmendEntry e t k o old)
    (hM : Match (replaceOrder e t k o) o.orderType e.orderbook.length b (placed e o) best)
    (hb : e.orderbook[b]? = some best) (horder : ∀ r, order = some r → r < e.orderbook.length)
    (hB : BookOk (applyMatch fee (replaceOrder e t k o) o.orderType e.orderbook.length b
      (placed e o) best))
    (hs : Sweep fee o.orderType order (applyMatch fee (replaceOrder e t k o) o.orderType
      e.orderbook.length b (placed e o) best) ts e') :
    (∀ x ∈ ts, SelfTrade (applyMatch fee (replaceOrder e t k o) o.orderType e.orderbook.length b
        (placed e o) best).traders (applyMatch fee (replaceOrder e t k o) o.orderType
        e.orderbook.length b (placed e o) best).orderbook x) ↔
      ∀ r ∈ order, ∀ x ∈ e.orderbook[r]?, r ≠ k → x.orderType = o.orderType →
        x.completed = false → MeetsOwn e.traders
          (e.orderbook.modify b (Order.fill (min o.quantity best.quantity))) x := by
  cases order with
  | none =>
      rw [sweep_idle hB (fun r y hr => by cases hr) hs]
      exact ⟨fun _ r hr => absurd hr (Option.not_mem_none r),
        fun _ x hx => absurd hx List.not_mem_nil⟩
  | some r =>
      have hy := List.getElem?_eq_getElem (horder r rfl)
      obtain ⟨y', hy', hcase⟩ := stale_order fee hold hM hy
      rcases hcase with ⟨hrk, hty, hopen, rfl⟩ | ⟨hnot, hidle⟩
      · rw [sweep_meetsOwn hs hB hy' hty hopen (agreeOn_firstMatch fee hold hM hb)
          (doors_match.trans (doors_replace e t k o))]
        constructor
        · intro h r' hr' x hx _ _ _
          cases hr'
          rw [hy] at hx
          cases hx
          exact h
        · intro h
          exact h r rfl _ hy hrk hty hopen
      · rw [sweep_idle hB (fun r' y hr hy₂ => by
          cases hr
          rw [hy'] at hy₂
          cases hy₂
          exact hidle) hs]
        refine ⟨fun _ r' hr' x hx h1 h2 h3 => ?_, fun _ x hx => absurd hx List.not_mem_nil⟩
        cases hr'
        rw [hy] at hx
        cases hx
        exact absurd ⟨h1, h2, h3⟩ hnot

/-- The trades of an AMEND: the first, and those of the order main's variable points to. -/
theorem tradeLoop_first {e e₁ : Exchange} {side : OrderType} {order' : Option Nat} {x : Trade}
    (order : Option Nat) (hB : BookOk e) (hp : placeFor fee side e order' = (some x, e₁)) :
    ∃ ts e', (tradeLoop fee side order e.orderbook.length (some x, e₁)).1 = x :: ts ∧
      Sweep fee side order e₁ ts e' := by
  rcases tradeLoop_after fee side order order' hB with ⟨h, _⟩ | ⟨x', e₁', hp', hs, hhead⟩
  · rw [hp] at h
    cases h
  · rw [hp] at hp' hs hhead
    cases hp'
    obtain ⟨ts, hts⟩ := List.head?_eq_some_iff.mp hhead
    rw [hts] at hs
    exact ⟨ts, _, hts, hs⟩

theorem paired_amended {k : Nat} {o old : Order} (hok : MainOk m)
    (hnd : (m.exchange.traders.map (·.traderPid)).Nodup)
    (htr : m.exchange.traders[sender]? = some tr) (hpid : tr.traderPid = pid)
    (hold : AmendEntry m.exchange sender k o old) (hsearch : amendSearch argv m.exchange sender tr =
      some (k, o)) {i : Input} (hi : entryOf m i = .amended sender k o) :
    Paired m.exchange.traders (some sender) (amendRequest fee m argv sender pid tr).2 ↔ Quiet m i := by
  have hS₁ := sound_replace hok.sound hold
  have hd := doors_replace m.exchange sender k o
  have hagree := agreeOn_replace hold
  rw [amendRequest_some hok.sound htr hold hsearch]
  simp only
  rw [paired_branch htr hpid hd]
  unfold Quiet
  rw [hi]
  simp only
  rcases placeFor_cases fee hS₁.toBookOk o.orderType (some m.exchange.orderbook.length) with
    ⟨hp, hno⟩ | ⟨r, b, o', best, hr, hM, hp⟩
  · -- no trade
    have hnone := hno _ _ rfl (replaceOrder_new hold) rfl hold.isOpen
    rw [show (placed m.exchange o).item = o.item from rfl,
      show (placed m.exchange o).unitPrice = o.unitPrice from rfl, ← getBest_congr hagree] at hnone
    rw [served_of_none hnone, hp]
    simp only
    refine ⟨fun _ => trivial, fun _ => ?_⟩
    cases (replaceOrder m.exchange sender k o).orderbook.length <;> exact trivial
  · cases hr
    have ho' : o' = placed m.exchange o :=
      Option.some.inj (hM.incoming.symm.trans (replaceOrder_new hold))
    subst ho'
    have hb : m.exchange.orderbook[b]? = some best :=
      hagree.symm.getElem? hM.inBook (openOf_iff.mpr ⟨hM.bookSide, hM.bookOpen⟩)
    have hfound : getBest o.orderType.other m.exchange.orderbook o.item o.unitPrice = some b :=
      (getBest_congr hagree _ _).trans hM.found
    obtain ⟨bs, hserved⟩ : ∃ bs, served o.orderType.other o.item o.unitPrice
        m.exchange.orderbook.length m.exchange.orderbook = best :: bs := by
      obtain ⟨n, hn⟩ : ∃ n, m.exchange.orderbook.length = n + 1 := by
        have := (List.getElem?_eq_some_iff.mp hb).1
        exact ⟨m.exchange.orderbook.length - 1, by omega⟩
      rw [hn]
      exact ⟨_, served_of_some hfound hb n⟩
    have hindex : best.orderIndex.toNat = b := by
      rw [hok.sound.index b best hb, Int.toNat_natCast]
    have hS₂ : Sound (applyMatch fee (replaceOrder m.exchange sender k o) o.orderType
        m.exchange.orderbook.length b (placed m.exchange o) best) := sound_match hS₁ hM
    have hd₂ : doors (applyMatch fee (replaceOrder m.exchange sender k o) o.orderType
        m.exchange.orderbook.length b (placed m.exchange o) best).traders =
        doors (replaceOrder m.exchange sender k o).traders := doors_match
    obtain ⟨ts, e', hloop, hsweep⟩ := tradeLoop_first m.order hS₁.toBookOk hp
    rw [hserved, hp]
    simp only
    rw [show Paired (replaceOrder m.exchange sender k o).traders _ _ ↔ Paired (applyMatch fee
        (replaceOrder m.exchange sender k o) o.orderType m.exchange.orderbook.length b
        (placed m.exchange o) best).traders _ _ from ⟨paired_doors hd₂.symm, paired_doors hd₂⟩,
      paired_loop fee _ _ _ _ hS₂ (by rw [pids_of_doors hd₂, pids_of_doors hd]; exact hnd)
        (fun x hx => by cases hx; exact List.mem_append_right _ List.mem_cons_self),
      hloop, List.forall_mem_cons, selfTrade_congr hd₂.symm (grows_match fee hM)
        applyMatch_book_length, selfTrade_match hM hd, hindex]
    exact and_congr (by rw [show (placed m.exchange o).trader = sender from hold.owner])
      (sweep_stale_meetsOwn hold hM hb hok.order hS₂.toBookOk hsweep)

end Branches

/-! ## 7. Every reachable state, every command -/

theorem findTrader_pid {ts : List Trader} {pid sender : Nat} {tr : Trader}
    (h : findTrader ts pid = some sender) (htr : ts[sender]? = some tr) : tr.traderPid = pid := by
  obtain ⟨hlt, hp, _⟩ := List.findIdx?_eq_some_iff_getElem.mp h
  obtain ⟨hlt', rfl⟩ := List.getElem?_eq_some_iff.mp htr
  exact of_decide_eq_true hp

/-- One step of a sound state with distinct process ids. -/
theorem paired_step (fee : Int → Int) {m : Main} (hok : MainOk m)
    (hnd : (m.exchange.traders.map (·.traderPid)).Nodup) (i : Input) :
    Paired m.exchange.traders (senderOf m i) (mainStep fee m i).2 ↔ Quiet m i := by
  cases i with
  | poll pid exited =>
      have hstep : (mainStep fee m (.poll pid exited)).2 = [] := by
        unfold mainStep
        simp only
        split <;> rfl
      rw [hstep]
      exact ⟨fun _ => trivial, fun _ => trivial⟩
  | command pid text =>
      rcases command_cases fee m pid text with ⟨hstep, he⟩ | ⟨sender, tr, _, hf, htr, hstep, he⟩
      · unfold Quiet
        rw [hstep, he]
        exact ⟨fun _ => trivial, fun _ => trivial⟩
      · have hpid := findTrader_pid hf htr
        rw [hstep, show senderOf m (.command pid text) = some sender from hf]
        rcases message_cases fee m sender pid tr text with ⟨_, _, _, _, he', hh⟩ |
          ⟨argv, o, _, hnew, he', hh⟩ | ⟨argv, k, o, _, hs, he', hh⟩ |
          ⟨_, _, _, _, _, _, _, he', hh⟩
        · unfold Quiet
          rw [he, he', hh]
          exact ⟨fun _ => trivial, fun _ => paired_alone htr hpid invalidText⟩
        · have hentry := he.trans he'
          unfold Quiet
          rw [hentry, hh]
          exact paired_new hok.sound hnd htr hpid (entryOf_new hentry).toFresh hnew
        · have hentry := he.trans he'
          obtain ⟨old, hold⟩ := entryOf_amended hok.sound.toBookOk hentry
          rw [hh]
          exact paired_amended hok hnd htr hpid hold hs hentry
        · unfold Quiet
          rw [he, he', hh]
          exact ⟨fun _ => trivial,
            fun _ => (paired_first htr hpid _).mpr (paired_broadcast sender _)⟩

/-- **Every notification is signalled to its addressee exactly if the command is quiet**: if it
    enters no order that meets an order of another trader, or of one that has left. -/
theorem notifications_paired (fee : Int → Int) (products : List Word) (pids : List Nat)
    (hpids : pids.Nodup) (argv : List Word) (is : List Input) (i : Input) :
    let m := mainRun fee products pids argv is
    Paired m.exchange.traders (senderOf m i) (mainStep fee m i).2 ↔ Quiet m i := by
  intro m
  exact paired_step fee (mainOk_run fee products pids argv is)
    (by rw [pids_run fee products pids argv is]; exact hpids) i

/-- A trader meets its own order: both FILLs are its own, and each is signalled to it. -/
theorem notifications_paired_selfTrade :
    let m := mainRun (· / 100) ["GPU".toList] [10, 11] (List.replicate 6 [])
      [.command 10 "SELL 0 GPU 4 100;".toList]
    let events := (mainStep (· / 100) m (.command 10 "BUY 1 GPU 4 100;".toList)).2
    events = [.write 0 "ACCEPTED 1;".toList, .kill 10, .write 1 "MARKET BUY GPU 4 100;".toList,
      .kill 11, .write 0 "FILL 1 4;".toList, .kill 10, .write 0 "FILL 0 4;".toList, .kill 10] ∧
    Paired m.exchange.traders (some 0) events := by
  intro m events
  have hsender : senderOf m (.command 10 "BUY 1 GPU 4 100;".toList) = some 0 := by decide +kernel
  have h := notifications_paired (· / 100) ["GPU".toList] [10, 11] (by decide) (List.replicate 6 [])
    [.command 10 "SELL 0 GPU 4 100;".toList] (.command 10 "BUY 1 GPU 4 100;".toList)
  refine ⟨by decide +kernel, ?_⟩
  rw [← hsender]
  apply h.mpr
  decide +kernel

/-- A buyer meets the seller: the FILL of the seller is written to it, and the signal goes to
    the buyer. -/
theorem notifications_astray :
    let m := mainRun (· / 100) ["GPU".toList] [10, 11] (List.replicate 6 [])
      [.command 10 "SELL 0 GPU 4 100;".toList]
    (mainStep (· / 100) m (.command 11 "BUY 0 GPU 4 100;".toList)).2.drop 4 =
      [.write 1 "FILL 0 4;".toList, .kill 11, .write 0 "FILL 0 4;".toList, .kill 11] ∧
    ¬ Paired m.exchange.traders (some 1)
      (mainStep (· / 100) m (.command 11 "BUY 0 GPU 4 100;".toList)).2 := by
  intro m
  have htrace : (mainStep (· / 100) m (.command 11 "BUY 0 GPU 4 100;".toList)).2 =
      [.write 1 "ACCEPTED 0;".toList, .kill 11, .write 0 "MARKET BUY GPU 4 100;".toList, .kill 10,
        .write 1 "FILL 0 4;".toList, .kill 11, .write 0 "FILL 0 4;".toList, .kill 11] := by
    decide +kernel
  rw [htrace]
  refine ⟨rfl, fun h => ?_⟩
  obtain ⟨_, _, _, ⟨tr, ht, hpid, _⟩, _⟩ := h
  have hpid' : m.exchange.traders[0]?.map (·.traderPid) = some 10 := by decide +kernel
  rw [ht] at hpid'
  have h10 : tr.traderPid = 10 := Option.some.inj hpid'
  omega

end SysProg.Pe
