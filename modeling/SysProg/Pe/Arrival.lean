/-
  File:      SysProg/Pe/Arrival.lean
  Subject:   WHAT A BUY/SELL COMMAND DOES, read off the state it comes to.

  Whether the command is accepted depends on its words, on the flag and the
  `order_count` of its sender, and on the product list; not on what earlier
  messages left in `market_argv`. On a book that numbers its orders the
  trades of an accepted order are those of the reference matcher, and book,
  log and messages follow from them.

  * `arrivalTrades` -- the trades;
  * `arrival_book`, `arrival_log` -- the state an accepted order leaves;
  * `OrderCommand`, `entryOf_congr` -- what decides the entry;
  * `orderCommand_events` -- the messages.
-/
import SysProg.Pe.Agreement
import SysProg.Pe.Crossed

namespace SysProg.Pe

open Lib

/-! ## 1. The trades of an order -/

/-- The trades of an order that comes to a book as its order number `r`. -/
def arrivalTrades (fee : Int → Int) (r : Nat) (book : List Order) (o : Order) : List Trade :=
  referenceTrades fee r o.quantity (queue o.orderType.other book o.item o.unitPrice)

/-- A trade with the orders numbered anew. -/
def Trade.renumber (ρ : Nat → Nat) (y : Trade) : Trade :=
  { y with incomingOrder := ρ y.incomingOrder, orderInBook := ρ y.orderInBook }

section Trades

variable {fee : Int → Int} {r : Nat} {book : List Order} {o : Order}

/-- The trades are with orders of the book for the same item. -/
theorem mem_arrivalTrades (hI : Indexed book) {y : Trade} (h : y ∈ arrivalTrades fee r book o) :
    y.incomingOrder = r ∧ ∃ b, book[y.orderInBook]? = some b ∧ b.item = o.item := by
  refine (referenceTrades_forall (P := fun j k => j = r ∧ ∃ b, book[k]? = some b ∧ b.item = o.item)
    _ _).mpr (fun b hb => ⟨rfl, b, ?_⟩) y h
  obtain ⟨hmem, hcross⟩ := ((queued_queue hI _ _ _).mem b).mp (reached_mem hb)
  exact ⟨getElem?_index hI hmem, hcross.1.2.1⟩

/-- An order of the book for another item has no share in them. -/
theorem tradedQuantity_other (hI : Indexed book) (hr : book.length ≤ r) {k : Nat} {x : Order}
    (hk : book[k]? = some x) (hne : x.item ≠ o.item) :
    tradedQuantity k (arrivalTrades fee r book o) = 0 := by
  refine tradedQuantity_eq_zero fun y hy => ?_
  obtain ⟨hin, b, hb, hitem⟩ := mem_arrivalTrades hI hy
  have hlt := (List.getElem?_eq_some_iff.mp hk).1
  simp only [Trade.involves, Bool.or_eq_false_iff, decide_eq_false_iff_not]
  refine ⟨by omega, fun hyk => ?_⟩
  rw [hyk, hk] at hb
  cases hb
  exact hne hitem

/-- A book with the same orders for the item. -/
theorem arrivalTrades_agree {book' : List Order}
    (h : AgreeOn (fun b : Order => b.item = o.item) book book') :
    arrivalTrades fee r book' o = arrivalTrades fee r book o := by
  have hfilter : (book'.filter fun b => Crossing o.orderType.other o.item o.unitPrice b) =
      book.filter fun b => Crossing o.orderType.other o.item o.unitPrice b := by
    refine filter_agree (fun b hb => ?_) h.symm
    simp only [decide_eq_true_eq] at hb
    exact decide_eq_true hb.1.2.1
  unfold arrivalTrades queue
  rw [hfilter]

theorem referenceTrades_renumber {ρ : Nat → Nat} {l : List Order} (q : Int)
    (h : ∀ b ∈ l, ρ b.orderIndex.toNat = b.orderIndex.toNat) :
    referenceTrades fee (ρ r) q l = (referenceTrades fee r q l).map (Trade.renumber ρ) := by
  induction l generalizing q with
  | nil => rfl
  | cons b bs ih =>
      obtain ⟨hb, hbs⟩ := List.forall_mem_cons.mp h
      rw [referenceTrades, referenceTrades]
      by_cases hq : q ≤ 0
      · rw [if_pos hq, if_pos hq]
        rfl
      · rw [if_neg hq, if_neg hq, List.map_cons, ih _ hbs]
        simp only [Trade.renumber, hb]

/-- The same order under another number. -/
theorem arrivalTrades_renumber (hI : Indexed book) {ρ : Nat → Nat}
    (hρ : ∀ k, k < book.length → ρ k = k) :
    arrivalTrades fee (ρ r) book o = (arrivalTrades fee r book o).map (Trade.renumber ρ) := by
  refine referenceTrades_renumber _ fun b hb => hρ _ ?_
  have hmem := (((queued_queue hI _ _ _).mem b).mp hb).1
  exact (List.getElem?_eq_some_iff.mp (getElem?_index hI hmem)).1

theorem tradedQuantity_renumber {ρ : Nat → Nat} (hρ : Function.Injective ρ) (k : Nat)
    (ts : List Trade) : tradedQuantity (ρ k) (ts.map (Trade.renumber ρ)) = tradedQuantity k ts := by
  induction ts with
  | nil => rfl
  | cons y ts ih =>
      have hinv : (y.renumber ρ).involves (ρ k) = y.involves k := by
        simp only [Trade.involves, Trade.renumber, hρ.eq_iff]
      rw [List.map_cons, tradedQuantity_cons, tradedQuantity_cons, ih, hinv]
      rfl

end Trades

/-! ## 2. The state an order leaves -/

/-- Of an order of a sound book, what was drawn from it decides what it is afterwards. -/
theorem Drawn.eq_fill {q : Int} {x x' : Order} (h : Drawn q x x')
    (hpos : x'.completed = false → 1 ≤ x'.quantity) : x' = x.fill q := by
  have hq := h.quantity
  have hc : x'.completed = (x.completed || decide (x.quantity - q ≤ 0)) := by
    cases hx : x'.completed with
    | true =>
        rcases h.closed hx with h' | h'
        · rw [h']
          rfl
        · rw [decide_eq_true (by omega), Bool.or_true]
    | false =>
        have hp := hpos hx
        rw [h.open_of_open hx, decide_eq_false (by omega)]
        rfl
  rw [fill_eq, ← hc]
  obtain ⟨⟨h1, h2, h3, h4, h5, h6, _⟩, _, _⟩ := h
  cases x
  cases x'
  simp only at h1 h2 h3 h4 h5 h6 hq ⊢
  subst h1 h2 h3 h4 h5 h6
  rw [← hq, Int.add_sub_cancel]

theorem fill_zero {x : Order} (hpos : x.completed = false → 1 ≤ x.quantity) : x.fill 0 = x :=
  ((Drawn.refl x).eq_fill hpos).symm

section State

variable {fee : Int → Int} {m : Main} {i : Input} {s : Nat} {o : Order}

/-- **The trades of a new order are the reference matcher's.** -/
theorem next_new_sweep (fee : Int → Int) (hS : Sound m.exchange) (hN : Numbered m.exchange)
    (h : entryOf m i = .new s o) :
    Sweep fee o.orderType (some m.exchange.orderbook.length) (enterOrder m.exchange s o)
      (arrivalTrades fee m.exchange.orderbook.length m.exchange.orderbook o)
      (mainNext fee m i).exchange := by
  have hF := (entryOf_new h).toFresh
  have hB := (sound_enter hS hF).toBookOk
  have hnew : (enterOrder m.exchange s o).orderbook[m.exchange.orderbook.length]? =
      some (placed m.exchange o) := by
    rw [enterOrder_book, List.getElem?_concat_length]
    rfl
  obtain ⟨ts, hs, _⟩ := next_new fee hS h
  obtain ⟨e', he'⟩ := sweep_served fee _ hB List.countP_le_length hnew rfl
    (fun hc => by rw [show (placed m.exchange o).completed = false from hF.isOpen] at hc; cases hc)
  -- the orders served from the book with the new order are the queue of the book without it
  have hserved : served o.orderType.other o.item o.unitPrice
      (enterOrder m.exchange s o).orderbook.length (enterOrder m.exchange s o).orderbook =
      queue o.orderType.other m.exchange.orderbook o.item o.unitPrice := by
    refine (served_congr _ _ _ (agreeOn_append m.exchange o)).symm.trans ?_
    refine served_queue _ _ ?_ hS.index (keysDistinct_of_numbered hS hN _)
      (queued_queue hS.index _ _ _)
    refine (queue_length_le _ _ _ _).trans ?_
    rw [enterOrder_book, List.length_append]
    exact Nat.le_add_right _ _
  obtain ⟨hts, _⟩ := repeats_unique hs he'
  rw [hts] at hs
  unfold arrivalTrades
  rw [← hserved]
  exact hs

/-- **The log after a new order.** -/
theorem arrival_log (fee : Int → Int) (hS : Sound m.exchange) (hN : Numbered m.exchange)
    (h : entryOf m i = .new s o) :
    (mainNext fee m i).exchange.completedTrades = m.exchange.completedTrades ++
      arrivalTrades fee m.exchange.orderbook.length m.exchange.orderbook o :=
  (sweep_drawn (next_new_sweep fee hS hN h)
    (sound_enter hS (entryOf_new h).toFresh).toBookOk).2.1

/-- **The book after a new order**: every order has lost what it traded. -/
theorem arrival_book (fee : Int → Int) (hS : Sound m.exchange) (hN : Numbered m.exchange)
    (h : entryOf m i = .new s o) (k : Nat) :
    (mainNext fee m i).exchange.orderbook[k]? =
      ((m.exchange.orderbook ++ [placed m.exchange o])[k]?).map
        (Order.fill (tradedQuantity k
          (arrivalTrades fee m.exchange.orderbook.length m.exchange.orderbook o))) := by
  obtain ⟨hB', _, hlen, hdrawn⟩ := sweep_drawn (next_new_sweep fee hS hN h)
    (sound_enter hS (entryOf_new h).toFresh).toBookOk
  cases hk : (m.exchange.orderbook ++ [placed m.exchange o])[k]? with
  | none =>
      rw [Option.map_none, List.getElem?_eq_none_iff, hlen]
      exact List.getElem?_eq_none_iff.mp hk
  | some x =>
      obtain ⟨x', hx', hd⟩ := hdrawn k x hk
      rw [hx', hd.eq_fill (hB'.positive k x' hx')]
      rfl

theorem arrival_book_length (fee : Int → Int) (hS : Sound m.exchange) (hN : Numbered m.exchange)
    (h : entryOf m i = .new s o) :
    (mainNext fee m i).exchange.orderbook.length = m.exchange.orderbook.length + 1 := by
  rw [(sweep_drawn (next_new_sweep fee hS hN h)
    (sound_enter hS (entryOf_new h).toFresh).toBookOk).2.2.1, enterOrder_book, List.length_append]
  rfl

/-- An order for another item is as it was. -/
theorem arrival_other (fee : Int → Int) (hS : Sound m.exchange) (hN : Numbered m.exchange)
    (h : entryOf m i = .new s o) {k : Nat} {x : Order} (hk : m.exchange.orderbook[k]? = some x)
    (hne : x.item ≠ o.item) : (mainNext fee m i).exchange.orderbook[k]? = some x := by
  rw [arrival_book fee hS hN h, List.getElem?_append_left (List.getElem?_eq_some_iff.mp hk).1, hk,
    tradedQuantity_other hS.index (Nat.le_refl _) hk hne]
  exact congrArg some (fill_zero (hS.positive k x hk))

/-- **The orders for another item are the same before and after.** -/
theorem arrival_agree (fee : Int → Int) (hS : Sound m.exchange) (hN : Numbered m.exchange)
    (h : entryOf m i = .new s o) {x : Word} (hne : o.item ≠ x) :
    AgreeOn (fun b : Order => b.item = x) m.exchange.orderbook
      (mainNext fee m i).exchange.orderbook := by
  intro k
  cases hk : m.exchange.orderbook[k]? with
  | none =>
      -- nothing, or the new order
      cases hk' : (mainNext fee m i).exchange.orderbook[k]? with
      | none => rfl
      | some y =>
          rw [arrival_book fee hS hN h] at hk'
          obtain ⟨z, hz, rfl⟩ := Option.map_eq_some_iff.mp hk'
          rcases getElem?_snoc hz with hz | ⟨_, rfl⟩
          · rw [hk] at hz
            cases hz
          · rw [Option.filter_some, fill_item,
              show (placed m.exchange o).item = o.item from rfl, if_neg (by simpa using hne)]
            rfl
  | some b =>
      by_cases hb : b.item = o.item
      · have hlt := (List.getElem?_eq_some_iff.mp hk).1
        have hbx : b.item ≠ x := by
          rw [hb]
          exact hne
        rw [arrival_book fee hS hN h, List.getElem?_append_left hlt, hk, Option.map_some,
          Option.filter_some, Option.filter_some, fill_item, if_neg (by simpa using hbx),
          if_neg (by simpa using hbx)]
      · rw [arrival_other fee hS hN h hk hb]

end State

/-! ## 3. The messages -/

/-- The broadcast looks at the doors only. -/
theorem broadcast_doors {ts ts' : List Trader} (h : doors ts' = doors ts) (sender : Nat)
    (text : List Char) : broadcast ts' sender text = broadcast ts sender text := by
  have hdoors : ∀ ts : List Trader, broadcast ts sender text =
      (doors ts).zipIdx.flatMap fun d =>
        if d.2 ≠ sender ∧ d.1.2 = false then notify d.2 d.1.1 text else [] := by
    intro ts
    rw [doors, List.zipIdx_map, List.flatMap_map]
    rfl
  rw [hdoors, hdoors, h]

/-- Trader and id of the order at position `k`. -/
def keyAt (book : List Order) (k : Nat) : Option (Nat × Int) :=
  book[k]?.map fun o => (o.trader, o.orderId)

/-- The FILLs of a trade look at the doors, and at the keys of the two orders. -/
theorem fillEvents_eq (e : Exchange) (y : Trade) : fillEvents e y =
    match keyAt e.orderbook y.incomingOrder, keyAt e.orderbook y.orderInBook with
    | some (t, d), some (t', d') =>
        match (doors e.traders)[t]?, (doors e.traders)[t']? with
        | some (pid, _), some (_, gone) =>
            notify t pid (fillText d y.transactionQuantity) ++
            (if gone then [] else [.write t' (fillText d' y.transactionQuantity)]) ++ [.kill pid]
        | _, _ => []
    | _, _ => [] := by
  unfold fillEvents keyAt
  cases e.orderbook[y.incomingOrder]? with
  | none => rfl
  | some o =>
      cases e.orderbook[y.orderInBook]? with
      | none => rfl
      | some b =>
          simp only [Option.map_some, doors, List.getElem?_map]
          cases e.traders[o.trader]? with
          | none => rfl
          | some t => cases e.traders[b.trader]? <;> rfl

theorem fillEvents_congr {e e' : Exchange} {y y' : Trade}
    (hd : doors e'.traders = doors e.traders)
    (hin : keyAt e'.orderbook y'.incomingOrder = keyAt e.orderbook y.incomingOrder)
    (hbook : keyAt e'.orderbook y'.orderInBook = keyAt e.orderbook y.orderInBook)
    (hq : y'.transactionQuantity = y.transactionQuantity) : fillEvents e' y' = fillEvents e y := by
  rw [fillEvents_eq, fillEvents_eq, hin, hbook, hq, hd]

/-- An order keeps its key. -/
theorem keyAt_grows {ob ob' : List Order} (hg : Grows ob ob') {k : Nat} (hk : k < ob.length) :
    keyAt ob' k = keyAt ob k := by
  obtain ⟨o', ho', he⟩ := hg k _ (List.getElem?_eq_getElem hk)
  unfold keyAt
  rw [ho', List.getElem?_eq_getElem hk, Option.map_some, Option.map_some, he.trader, he.orderId]

theorem fillEvents_grows {e e' : Exchange} (hd : doors e'.traders = doors e.traders)
    (hg : Grows e.orderbook e'.orderbook) (hlen : e'.orderbook.length = e.orderbook.length)
    (y : Trade) : fillEvents e' y = fillEvents e y := by
  have hkeep : ∀ k : Nat, keyAt e'.orderbook k = keyAt e.orderbook k := by
    intro k
    by_cases hk : k < e.orderbook.length
    · exact keyAt_grows hg hk
    · unfold keyAt
      rw [List.getElem?_eq_none (by omega), List.getElem?_eq_none (by omega)]
  exact fillEvents_congr hd (hkeep _) (hkeep _) rfl

/-- The messages of the matching loop are the FILLs of its trades, read off the first book. -/
theorem tradeLoop_events (fee : Int → Int) (side : OrderType) (order : Option Nat) :
    ∀ (n : Nat) {ot : Option Trade} {e : Exchange}, Sound e →
      (tradeLoop fee side order n (ot, e)).2.1 =
        (tradeLoop fee side order n (ot, e)).1.flatMap (fillEvents e) := by
  intro n
  induction n with
  | zero =>
      intro ot e _
      cases ot <;> rfl
  | succ n ih =>
      intro ot e hS
      cases ot with
      | none => rfl
      | some t =>
          obtain ⟨hS', hd, hg, hlen, -⟩ := placeFor_frame fee side order hS
          show fillEvents e t ++ (tradeLoop fee side order n (placeFor fee side e order)).2.1 =
            (t :: (tradeLoop fee side order n (placeFor fee side e order)).1).flatMap _
          rw [List.flatMap_cons, ih hS', List.flatMap_congr fun y _ => fillEvents_grows hd hg hlen y]

/-! ## 4. Reading a command -/

/-- A BUY or SELL command for the product `x`. -/
def OrderCommand (text : List Char) (x : Word) : Prop :=
  ((tokens ' ' (cutAt ';' text))[0]? = some "SELL".toList ∨
    (tokens ' ' (cutAt ';' text))[0]? = some "BUY".toList) ∧
  (tokens ' ' (cutAt ';' text))[2]? = some x

instance (text : List Char) (x : Word) : Decidable (OrderCommand text x) :=
  inferInstanceAs (Decidable ((_ ∨ _) ∧ _))

theorem argAt_append {ws : List Word} {k : Nat} (hk : k < ws.length) (rest : List Word) :
    argAt (ws ++ rest) k = argAt ws k := by
  unfold argAt
  rw [List.getElem?_append_left hk]

theorem messageOf_connected {tr : Trader} (h : tr.disconnected = false) (text : List Char) :
    messageOf tr text = cutAt ';' text := by
  unfold messageOf
  rw [h]
  rfl

/-- A BUY or SELL command is received as an order, or not at all. -/
theorem readMessage_command {text : List Char} {x : Word} (hcmd : OrderCommand text x) (tr : Trader)
    {argv : List Word} (hargv : argv.length = commandArgc) (products : List Word) :
    ∃ argv', readMessage (messageOf tr text) argv products = (.ORDER_RECEIVED, argv') ∨
      readMessage (messageOf tr text) argv products = (.INVALID_MESSAGE, argv') := by
  cases hd : tr.disconnected with
  | true =>
      refine ⟨argv, Or.inr ?_⟩
      unfold messageOf
      rw [hd, if_pos rfl]
      rfl
  | false =>
      rw [messageOf_connected hd]
      unfold readMessage
      split
      · exact ⟨_, Or.inr rfl⟩
      · rename_i k argv' hsplit
        refine ⟨argv', ?_⟩
        obtain ⟨-, rfl⟩ := splitMessage_some hsplit (by rw [hargv]; decide)
        have hside : argAt (tokens ' ' (cutAt ';' text) ++ argv.drop k) 0 = "SELL".toList ∨
            argAt (tokens ' ' (cutAt ';' text) ++ argv.drop k) 0 = "BUY".toList := by
          have hpos := (List.getElem?_eq_some_iff.mp hcmd.2).1
          rw [argAt_append (by omega)]
          unfold argAt
          rcases hcmd.1 with h | h <;> rw [h]
          · exact Or.inl rfl
          · exact Or.inr rfl
        rw [if_pos hside]
        split
        · exact Or.inr rfl
        · split
          · exact Or.inl rfl
          · exact Or.inr rfl

section Reading

variable {m m' : Main} {s pid : Nat} {tr tr' : Trader} {text : List Char} {x : Word} {o : Order}

/-- What a BUY or SELL command enters: nothing, or an order for its product. -/
theorem messageEntry_command (hcmd : OrderCommand text x) (hargv : m.marketArgv.length = commandArgc) :
    messageEntry m s tr text = .none ∨ ∃ o, messageEntry m s tr text = .new s o ∧ o.item = x := by
  obtain ⟨argv, hmsg | hmsg⟩ := readMessage_command hcmd tr hargv m.exchange.products
  · cases hnew : newOrder argv s tr (orderTypeOf (argAt argv 0)) with
    | none =>
        refine Or.inl ?_
        simp only [messageEntry, hmsg, hnew]
    | some o =>
        refine Or.inr ⟨o, messageEntry_eq_new.mpr ⟨rfl, argv, hmsg, hnew⟩, ?_⟩
        obtain ⟨hsplit, -, -⟩ := readMessage_order hmsg
        obtain ⟨hlen, rfl⟩ := splitMessage_some hsplit (by rw [hargv]; decide)
        obtain ⟨_, -, -, -, -, -, -, -, -, -, rfl⟩ := newOrder_eq_some.mp hnew
        -- a message that is split is that of a connected trader
        have hconn : tr.disconnected = false := by
          refine Bool.eq_false_iff.mpr fun hd => ?_
          rw [messageOf, if_pos hd] at hlen
          cases hlen
        show argAt _ 2 = x
        rw [argAt_append (by omega), messageOf_connected hconn, argAt, hcmd.2]
        rfl
  · refine Or.inl ?_
    simp only [messageEntry, hmsg]

/-- The words decide: the same message is the same order, whatever `market_argv` holds. -/
theorem messageEntry_other (hargv : m.marketArgv.length = commandArgc)
    (hargv' : m'.marketArgv.length = commandArgc)
    (hp : m'.exchange.products = m.exchange.products) (hd : tr'.disconnected = tr.disconnected)
    (hc : tr'.orderCount = tr.orderCount) (h : messageEntry m s tr text = .new s o) :
    messageEntry m' s tr' text = .new s o := by
  obtain ⟨-, argv, hmsg, hnew⟩ := messageEntry_eq_new.mp h
  obtain ⟨hsplit, hitem, hside⟩ := readMessage_order hmsg
  obtain ⟨hlen, rfl⟩ := splitMessage_some hsplit (by rw [hargv]; decide)
  have hwords : ∀ k < 5, argAt (tokens ' ' (messageOf tr text) ++ m'.marketArgv.drop 5) k =
      argAt (tokens ' ' (messageOf tr text) ++ m.marketArgv.drop 5) k := by
    intro k hk
    rw [argAt_append (by omega), argAt_append (by omega)]
  have hmessage : messageOf tr' text = messageOf tr text := by
    unfold messageOf
    rw [hd]
  refine messageEntry_eq_new.mpr ⟨rfl, tokens ' ' (messageOf tr text) ++ m'.marketArgv.drop 5, ?_, ?_⟩
  · rw [hmessage, hp]
    refine readMessage_of_split (splitMessage_other hsplit (by rw [hargv']; decide)) ?_ ?_
    · rw [hwords 2 (by decide)]
      exact hitem
    · rw [hwords 0 (by decide)]
      exact hside
  · rw [newOrder_eq_some] at hnew ⊢
    rw [hwords 0 (by decide), hwords 1 (by decide), hwords 2 (by decide), hwords 3 (by decide),
      hwords 4 (by decide), hc]
    exact hnew

/-- What the reading of a command of the process `pid` looks at is the same in both states. -/
structure SameReading (pid : Nat) (m m' : Main) : Prop where
  running : m'.exchangeDisconnect = m.exchangeDisconnect
  products : m'.exchange.products = m.exchange.products
  traders : doors m'.exchange.traders = doors m.exchange.traders
  counts : ∀ s, findTrader m.exchange.traders pid = some s →
    (m'.exchange.traders.map Trader.orderCount)[s]? = (m.exchange.traders.map Trader.orderCount)[s]?
  argv : m.marketArgv.length = commandArgc
  argv' : m'.marketArgv.length = commandArgc

theorem findTrader_doors {ts ts' : List Trader} (h : doors ts' = doors ts) (pid : Nat) :
    findTrader ts' pid = findTrader ts pid := by
  have hdoors : ∀ ts, findTrader ts pid = (doors ts).findIdx? fun d => d.1 = pid := by
    intro ts
    rw [doors, List.findIdx?_map]
    rfl
  rw [hdoors, hdoors, h]

theorem SameReading.symm (h : SameReading pid m m') : SameReading pid m' m :=
  ⟨h.running.symm, h.products.symm, h.traders.symm,
    fun s hs => (h.counts s (by rw [← findTrader_doors h.traders]; exact hs)).symm, h.argv', h.argv⟩

/-- A command that enters an order, in full. -/
theorem entryOf_command (hrun : m.exchangeDisconnect = false)
    (hf : findTrader m.exchange.traders pid = some s) (htr : m.exchange.traders[s]? = some tr) :
    entryOf m (.command pid text) = messageEntry m s tr text := by
  simp only [entryOf, hrun, Bool.false_eq_true, if_false, hf, htr]

theorem entryOf_other (hs : SameReading pid m m') (h : entryOf m (.command pid text) = .new s o) :
    entryOf m' (.command pid text) = .new s o := by
  obtain ⟨_, _, tr, _, e, hrun, hf, htr, -⟩ := entryOf_eq_new id h
  cases e
  rw [entryOf_command hrun hf htr] at h
  obtain ⟨tr', htr', _, hd⟩ := doors_getElem? hs.traders.symm htr
  have hc := hs.counts s hf
  rw [List.getElem?_map, List.getElem?_map, htr, htr'] at hc
  rw [entryOf_command (hs.running.trans hrun) ((findTrader_doors hs.traders pid).trans hf) htr']
  exact messageEntry_other hs.argv hs.argv' hs.products hd (Option.some.inj hc) h

/-- A BUY or SELL command enters nothing, or an order of its sender for its product. -/
theorem entryOf_orderCommand (hargv : m.marketArgv.length = commandArgc) (hcmd : OrderCommand text x)
    (hf : findTrader m.exchange.traders pid = some s) : entryOf m (.command pid text) = .none ∨
      ∃ o, entryOf m (.command pid text) = .new s o ∧ o.item = x := by
  rcases command_cases id m pid text with ⟨_, he⟩ | ⟨s', tr, _, hf', _, _, he⟩
  · exact Or.inl he
  · rw [hf] at hf'
    cases hf'
    rw [he]
    exact messageEntry_command hcmd hargv

/-- **The entry of a BUY or SELL command depends on what its reading looks at.** -/
theorem entryOf_congr (hs : SameReading pid m m') (hcmd : OrderCommand text x)
    (hf : findTrader m.exchange.traders pid = some s) :
    entryOf m' (.command pid text) = entryOf m (.command pid text) := by
  rcases entryOf_orderCommand hs.argv hcmd hf with h | ⟨o, h, _⟩
  · rcases entryOf_orderCommand hs.argv' hcmd ((findTrader_doors hs.traders pid).trans hf) with
      h' | ⟨o', h', _⟩
    · rw [h, h']
    · rw [entryOf_other hs.symm h'] at h
      cases h
  · rw [h]
    exact entryOf_other hs h

/-- A command of one trader leaves what the reading of another's looks at. -/
theorem sameReading_command (fee : Int → Int) (hok : MainOk m)
    (hargv : m.marketArgv.length = commandArgc) {pid' t : Nat} {text' : List Char}
    (hf : findTrader m.exchange.traders pid = some s)
    (hf' : findTrader m.exchange.traders pid' = some t) (hne : s ≠ t) :
    SameReading pid m (mainNext fee m (.command pid' text')) where
  running := (command_online fee m pid' text').2
  products := next_products fee hok.sound _
  traders := doors_command fee hok.sound pid' text'
  counts s' hs' := by
    rw [hf] at hs'
    cases hs'
    have hlt : s < m.exchange.traders.length := (List.findIdx?_eq_some_iff_getElem.mp hf).1
    have htr := List.getElem?_eq_getElem hlt
    -- what the other command enters is its own sender's
    have hzero : newOrdersOf s (entryOf m (.command pid' text')) = 0 := by
      cases he : entryOf m (.command pid' text') with
      | none => rfl
      | amended => rfl
      | new u o =>
          obtain ⟨_, _, _, _, e, -, hu, -⟩ := entryOf_eq_new id he
          cases e
          rw [hf'] at hu
          cases hu
          exact if_neg (Ne.symm hne)
    rw [next_count fee hok.sound _ htr, hzero, List.getElem?_map, htr]
    rfl
  argv := hargv
  argv' := (next_argv fee m _).trans hargv

end Reading

/-! ## 5. What a command is answered -/

section Answers

variable {fee : Int → Int} {m : Main} {s pid : Nat} {text : List Char} {x : Word} {o : Order}

/-- **A BUY or SELL command that enters nothing** is answered with INVALID. -/
theorem orderCommand_rejected (fee : Int → Int) (hargv : m.marketArgv.length = commandArgc)
    (hrun : m.exchangeDisconnect = false) (hcmd : OrderCommand text x)
    (hf : findTrader m.exchange.traders pid = some s)
    (h : entryOf m (.command pid text) = .none) :
    (mainNext fee m (.command pid text)).exchange = m.exchange ∧
    (mainStep fee m (.command pid text)).2 = notify s pid invalidText := by
  have hlt : s < m.exchange.traders.length := (List.findIdx?_eq_some_iff_getElem.mp hf).1
  have htr := List.getElem?_eq_getElem hlt
  rw [entryOf_command hrun hf htr] at h
  have hstep : mainStep fee m (.command pid text) =
      handleMessage fee m s pid m.exchange.traders[s] text := by
    simp only [mainStep, hrun, Bool.false_eq_true, if_false, hf, htr]
  unfold mainNext
  rw [hstep]
  obtain ⟨argv, hmsg | hmsg⟩ :=
    readMessage_command hcmd m.exchange.traders[s] hargv m.exchange.products
  · rw [handleMessage_order hmsg]
    cases hnew : newOrder argv s m.exchange.traders[s] (orderTypeOf (argAt argv 0)) with
    | none =>
        simp only [orderReceived, hnew]
        exact ⟨trivial, trivial⟩
    | some o =>
        rw [messageEntry_eq_new.mpr ⟨rfl, argv, hmsg, hnew⟩] at h
        cases h
  · simp only [handleMessage, hmsg]
    exact ⟨trivial, trivial⟩

/-- **A BUY or SELL command that enters an order** is answered with ACCEPTED, broadcast, and
    followed by the FILLs of its trades. -/
theorem orderCommand_accepted (fee : Int → Int) (hS : Sound m.exchange) (hN : Numbered m.exchange)
    (h : entryOf m (.command pid text) = .new s o) :
    (mainStep fee m (.command pid text)).2 =
      notify s pid (acceptedText o.orderId) ++
      broadcast m.exchange.traders s
        (marketText (typeText o.orderType) o.item o.quantity o.unitPrice) ++
      (arrivalTrades fee m.exchange.orderbook.length m.exchange.orderbook o).flatMap
        (fillEvents (enterOrder m.exchange s o)) := by
  have hS₁ := sound_enter hS (entryOf_new h).toFresh
  have hsweep := next_new_sweep fee hS hN h
  obtain ⟨_, _, tr, argv, e, -, -, -, hmsg, hnew, hstep⟩ := entryOf_eq_new fee h
  cases e
  have htype : argAt argv 0 = typeText o.orderType := by
    obtain ⟨_, hty, -, -, -, -, -, -, -, -, rfl⟩ := newOrder_eq_some.mp hnew
    exact orderTypeOf_some hty
  obtain ⟨hS₂, hd, hg, hlen, -⟩ :=
    placeFor_frame fee o.orderType (some m.exchange.orderbook.length) hS₁
  obtain ⟨hts, -⟩ := repeats_unique (tradeLoop_done fee o.orderType
    (some m.exchange.orderbook.length) hS₁.toBookOk) hsweep
  rw [hstep, handleMessage_order hmsg, orderReceived_some hnew]
  simp only
  rw [htype, broadcast_doors (doors_enter m.exchange s o), tradeLoop_events fee _ _ _ hS₂, hts,
    List.flatMap_congr fun y _ => fillEvents_grows hd hg hlen y]

end Answers

end SysProg.Pe
