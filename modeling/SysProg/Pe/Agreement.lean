/-
  File:      SysProg/Pe/Agreement.lean
  Subject:   THE EXCHANGE AND ONE pe_trader: do they agree on the next order
             id?

  `Net` is the exchange, one pe_trader and the messages under way between
  them, delivered whole, one at a time and in order. The other traders are
  arbitrary: their commands come in as they like. pe_trader counts the BUYs
  it sends in `orderID`, the exchange the orders it accepts in `order_count`.
  `orderID` also moves when nothing is sent: on a BUY that is broadcast, and
  on the broadcast of a cancelled order.

  * `Notice` -- all that the exchange ever sends to such a trader;
  * `Synced` -- the invariant: `orderID` is `order_count` plus the BUYs under
    way, and these carry the ids in between;
  * `ids_agree` -- it holds as long as the trader is handed no broadcast of a
    BUY below 1000 or of a cancelled order.
-/
import SysProg.Pe.Notify
import SysProg.Pe.Trader

namespace SysProg.Pe

open Lib

/-! ## 1. The composition -/

/-- The exchange, a pe_trader, and the messages under way in both directions. -/
structure Net where
  main : Main
  trader : PeTrader
  toTrader : List (List Char)
  toExchange : List (List Char)
  deriving DecidableEq, Repr

/-- The exchange handles the next message of pe_trader; it handles another input; pe_trader
    handles its next message. -/
inductive NetAct where
  | receive : NetAct
  | exchange (i : Input) : NetAct
  | trader : NetAct
  deriving DecidableEq, Repr

/-- An input that is not pe_trader's: a command of another process; or pe_trader is reaped, once
    it has ended and all it sent has been handled. -/
def Foreign (pid : Nat) (s : Net) : Input → Prop
  | .command p _ => p ≠ pid
  | .poll p exited => exited = true → p = pid → s.trader.disconnect = true ∧ s.toExchange = []

instance (pid : Nat) (s : Net) (i : Input) : Decidable (Foreign pid s i) := by
  unfold Foreign
  split <;> infer_instance

/-- The state after a step of the exchange, with its trace. -/
def Net.stepped (t : Nat) (s : Net) (r : Main × List Event) : Net :=
  { s with main := r.1, toTrader := s.toTrader ++ writtenTo t r.2 }

/-- The exchange handles the next message of pe_trader, which is the trader `t` of the table and
    has the process id `pid`. -/
def netReceive (fee : Int → Int) (t pid : Nat) (s : Net) : Net :=
  match s.toExchange with
  | [] => s
  | text :: rest =>
      if s.main.exchangeDisconnect then s
      else { s with toExchange := rest }.stepped t (mainStep fee s.main (.command pid text))

/-- pe_trader handles its next message. -/
def netTrader (s : Net) : Net :=
  match s.toTrader with
  | [] => s
  | text :: rest =>
      if s.trader.disconnect then s
      else
        let r := traderStep s.trader text
        { s with trader := r.1, toTrader := rest, toExchange := s.toExchange ++ r.2 }

def netNext (fee : Int → Int) (t pid : Nat) (s : Net) : NetAct → Net
  | .receive => netReceive fee t pid s
  | .exchange i => if Foreign pid s i then s.stepped t (mainStep fee s.main i) else s
  | .trader => netTrader s

/-- The state after main has announced MARKET OPEN. -/
def netInit (products : List Word) (pids : List Nat) (argv argv' : List Word) : Net where
  main := mainInit products pids argv
  trader := peTraderInit argv'
  toTrader := ["MARKET OPEN;".toList]
  toExchange := []

/-- **The next order id is agreed on**: the next message of pe_trader is a BUY that carries its
    `order_count`, and the exchange, while it runs, answers it with ACCEPTED. -/
def IdsAgree (fee : Int → Int) (t pid : Nat) (s : Net) : Prop :=
  ∀ text, s.toExchange.head? = some text → s.main.exchangeDisconnect = false →
    ∃ n item quantity unitPrice orderId,
      (s.main.exchange.traders[t]?).map Trader.orderCount = some n ∧
      text = buyText n item quantity unitPrice ∧
      (mainStep fee s.main (.command pid text)).2.head? = some (.write t (acceptedText orderId))

/-- The trader makes nothing of the message, ends, or answers it: a MARKET message is for a
    SELL, or for 1000 pieces or more. -/
def Answers (p : PeTrader) (text : List Char) : Prop :=
  match readFromExc (cutAt ';' text) p.marketArgv with
  | (.ORDER_RECEIVED, argv) =>
      match processOrder argv with
      | some o => 1000 ≤ o.quantity ∨ o.orderType = .SELL
      | none => False
  | _ => True

instance (p : PeTrader) (text : List Char) : Decidable (Answers p text) := by
  unfold Answers
  split
  · split <;> infer_instance
  · infer_instance

/-- The message a running pe_trader is handed in this step is of that kind. -/
def InStep (s : Net) : NetAct → Prop
  | .trader => s.trader.disconnect = false → ∀ text ∈ s.toTrader.head?, Answers s.trader text
  | _ => True

instance (s : Net) (a : NetAct) : Decidable (InStep s a) := by
  unfold InStep
  split <;> infer_instance

/-! ## 2. The orders that are broadcast -/

/-- What the exchange sends to a trader that only sends BUYs it accepts. -/
inductive Notice (products : List Word) : List Char → Prop
  | opening : Notice products "MARKET OPEN;".toList
  | market (s : OrderType) {item : Word} {quantity unitPrice : Int} (plain : Plain item)
      (listed : item ∈ products) (hq : InRange quantity) (hp : InRange unitPrice) :
      Notice products (marketText (typeText s) item quantity unitPrice)
  | cancelled (s : OrderType) {item : Word} (plain : Plain item) :
      Notice products (marketText (typeText s) item 0 0)
  | accepted (orderId : Int) : Notice products (acceptedText orderId)
  | fill (orderId quantity : Int) : Notice products (fillText orderId quantity)

/-- What a broadcast says of an order can be read back. -/
structure Stated (o : Order) : Prop where
  item : Plain o.item
  quantity : InRange o.quantity
  unitPrice : InRange o.unitPrice

/-- The tokens of a message are plain words. -/
theorem plain_token {tr : Trader} {text : List Char} {w : Word}
    (h : w ∈ tokens ' ' (messageOf tr text)) : Plain w := by
  obtain ⟨hword, hchars⟩ := mem_tokens h
  have hcut : ∀ c ∈ w, c ≠ ';' ∧ c ≠ '\x00' := by
    intro c hc
    have hm := hchars c hc
    unfold messageOf at hm
    split at hm
    · exact absurd hm List.not_mem_nil
    · exact ⟨(mem_cutAt hm).1, (mem_cutAt hm).2.1⟩
  exact ⟨hword, fun h => (hcut _ h).1 rfl, fun h => (hcut _ h).2 rfl⟩

theorem argAt_token {message : List Char} {argv argv' : List Word} {k : Nat}
    (h : splitMessage message argv = (some k, argv')) (hl : 5 ≤ argv.length) {j : Nat} (hj : j < k) :
    argAt argv' j ∈ tokens ' ' message := by
  obtain ⟨hlen, rfl⟩ := splitMessage_some h hl
  have hj' : j < (tokens ' ' message).length := by omega
  unfold argAt
  rw [List.getElem?_append_left hj', List.getElem?_eq_getElem hj']
  exact List.getElem_mem hj'

theorem orderTypeOf_some {w : Word} {s : OrderType} (h : orderTypeOf w = some s) : w = typeText s := by
  unfold orderTypeOf at h
  split at h
  · cases h
    assumption
  · split at h
    · cases h
      assumption
    · cases h

/-- A new order, and how it is broadcast. -/
theorem newOrder_stated {tr : Trader} {text : List Char} {argv argv' products : List Word}
    {sender : Nat} {o : Order} (hl : argv.length = commandArgc)
    (hmsg : readMessage (messageOf tr text) argv products = (.ORDER_RECEIVED, argv'))
    (hnew : newOrder argv' sender tr (orderTypeOf (argAt argv' 0)) = some o) :
    Stated o ∧ argAt argv' 0 = typeText o.orderType := by
  obtain ⟨hsplit, -, -⟩ := readMessage_order hmsg
  obtain ⟨s, hs, -, -, -, -, hq, hq', hp, hp', rfl⟩ := newOrder_eq_some.mp hnew
  have hitem := argAt_token hsplit (by rw [hl]; decide) (show 2 < 5 by decide)
  exact ⟨⟨plain_token hitem, ⟨hq, hq'⟩, ⟨hp, hp'⟩⟩, orderTypeOf_some hs⟩

/-- An amended order keeps its item. -/
theorem amendSearch_stated {argv : List Word} {e : Exchange} {t : Nat} {tr : Trader} {i : Nat}
    {o : Order} (hitems : ∀ (k : Nat) (o : Order), e.orderbook[k]? = some o → Plain o.item)
    (h : amendSearch argv e t tr = some (i, o)) : Stated o := by
  obtain ⟨old, hold, -, -, -, hnew, -⟩ := amendSearch_built h
  obtain ⟨s, -, -, -, -, -, hq, hq', hp, hp', rfl⟩ := newOrder_eq_some.mp hnew
  exact ⟨hitems i old hold, ⟨hq, hq'⟩, ⟨hp, hp'⟩⟩

/-- **Every item of the book is a plain word.** -/
theorem items_next (fee : Int → Int) {m : Main} (hS : Sound m.exchange)
    (hargv : m.marketArgv.length = commandArgc)
    (hitems : ∀ (k : Nat) (o : Order), m.exchange.orderbook[k]? = some o → Plain o.item)
    (i : Input) : ∀ (k : Nat) (o : Order),
      (mainNext fee m i).exchange.orderbook[k]? = some o → Plain o.item := by
  refine book_next fee (fun he h => by rw [he.item]; exact h) hS hitems
    (fun t o h => ?_) (fun t k o h => ?_)
  · obtain ⟨_, _, _, _, -, -, -, -, hmsg, hnew, -⟩ := entryOf_eq_new fee h
    exact (newOrder_stated hargv hmsg hnew).1.item
  · obtain ⟨old, hold⟩ := entryOf_amended hS.toBookOk h
    show Plain o.item
    rw [hold.sameItem]
    exact hitems k old hold.place

/-! ## 3. What is written to a trader -/

section Written

variable {fee : Int → Int} {m : Main} {t sender pid : Nat} {products : List Word}

/-- A branch of the switch, seen by another trader: the broadcast and FILLs. -/
theorem notice_branch {ts : List Trader} {first text text' : List Char} {es : List Event}
    (hother : sender ≠ t) (htext : Notice products text)
    (hes : ∀ x, Event.write t x ∈ es → ∃ i q, x = fillText i q)
    (h : Event.write t text' ∈ notify sender pid first ++ broadcast ts sender text ++ es) :
    Notice products text' := by
  rcases List.mem_append.mp h with h | h
  · rcases List.mem_append.mp h with h | h
    · exact absurd (write_notify.mp h).1 hother
    · rw [(write_broadcast h).2]
      exact htext
  · obtain ⟨i, q, rfl⟩ := hes _ h
    exact .fill i q

/-- **Whatever another trader sends, pe_trader is told of it by broadcasts and FILLs only.** -/
theorem notice_other (hok : MainOk m) (hargv : m.marketArgv.length = commandArgc)
    (hitems : ∀ (k : Nat) (o : Order), m.exchange.orderbook[k]? = some o → Plain o.item)
    {i : Input} (hother : senderOf m i ≠ some t) {text : List Char}
    (h : Event.write t text ∈ (mainStep fee m i).2) : Notice m.exchange.products text := by
  cases i with
  | poll p exited =>
      unfold mainStep at h
      simp only at h
      split at h <;> exact absurd h List.not_mem_nil
  | command p input =>
      rcases command_cases fee m p input with ⟨hstep, _⟩ | ⟨sender, tr, _, hf, htr, hstep, _⟩
      · rw [hstep] at h
        exact absurd h List.not_mem_nil
      · have hne : sender ≠ t := fun he => hother (by rw [← he]; exact hf)
        rw [hstep] at h
        rcases message_cases fee m sender p tr input with ⟨_, _, _, _, _, hh⟩ |
          ⟨argv, o, hmsg, hnew, _, hh⟩ | ⟨argv, k, o, _, hs, _, hh⟩ |
          ⟨_, _, r, o, _, hr, _, _, hh⟩ <;> rw [hh] at h
        · exact absurd (write_notify.mp h).1 hne
        · obtain ⟨hst, htype⟩ := newOrder_stated hargv hmsg hnew
          have hlisted : o.item ∈ m.exchange.products := by
            obtain ⟨s, -, -, -, -, -, -, -, -, -, rfl⟩ := newOrder_eq_some.mp hnew
            exact (readMessage_order hmsg).2.1
          rw [orderReceived_some hnew, htype] at h
          exact notice_branch hne (.market o.orderType hst.item hlisted hst.quantity hst.unitPrice)
            (fun x hx => write_loop _ hx) h
        · obtain ⟨_, old, hold⟩ := amendSearch_spec hok.sound.toBookOk htr hs
          have hst := amendSearch_stated hitems hs
          rw [amendRequest_some hok.sound htr hold hs] at h
          exact notice_branch hne
            (.market o.orderType hst.item hold.item hst.quantity hst.unitPrice)
            (fun x hx => write_loop _ hx) h
        · rw [← List.append_nil (_ ++ _)] at h
          exact notice_branch hne (.cancelled o.orderType (hitems r o hr))
            (fun x hx => absurd hx List.not_mem_nil) h

end Written

/-! ## 4. `order_count` and the flag of a trader -/

/-- The number of new orders of trader `t` that are entered. -/
def newOrdersOf (t : Nat) : Entry → Nat
  | .new s _ => if s = t then 1 else 0
  | _ => 0

section Counts

variable {m : Main} {t : Nat} {tr : Trader}

theorem count_modify {f : Trader → Trader} {s d : Nat}
    (hf : ∀ x, (f x).orderCount = x.orderCount + d) {ts : List Trader} (ht : ts[t]? = some tr) :
    ((ts.modify s f).map Trader.orderCount)[t]? =
      some (tr.orderCount + if s = t then d else 0) := by
  rw [List.getElem?_map, List.getElem?_modify]
  by_cases hs : s = t
  · simp [hs, ht, hf]
  · simp [hs, ht]

/-- **`order_count` counts the new orders of the trader.** -/
theorem next_count (fee : Int → Int) (hS : Sound m.exchange) (i : Input)
    (ht : m.exchange.traders[t]? = some tr) :
    ((mainNext fee m i).exchange.traders.map Trader.orderCount)[t]? =
      some (tr.orderCount + newOrdersOf t (entryOf m i)) := by
  have hsame : (m.exchange.traders.map Trader.orderCount)[t]? = some tr.orderCount := by
    rw [List.getElem?_map, ht]
    rfl
  refine (mainNext_inv (I := fun e => (e.traders.map Trader.orderCount)[t]? =
    some (tr.orderCount + newOrdersOf t (entryOf m i)))
    (fun e side r b o best _ hc _ => ?_) hS ?_ ?_ ?_ ?_ ?_).2
  · rw [← hc]
    show ((settle e.products side o best _ _ _ e.traders).map _)[t]? = _
    unfold settle
    rw [map_modify_same, map_modify_same, map_modify_same]
    all_goals exact fun _ => rfl
  · intro s o h _
    rw [h]
    exact count_modify (f := (traderAddOrder · m.exchange.orderbook.length)) (s := s) (d := 1)
      (fun x => List.length_append) ht
  · intro s k o old h _
    rw [h]
    show ((m.exchange.traders.modify s _).map _)[t]? = _
    rw [map_modify_same]
    · exact hsame
    · exact fun x => List.length_map _
  · intro h
    rw [h]
    exact hsame
  · intro r o h _ _
    rw [h]
    exact hsame
  · intro p h
    subst h
    refine Eq.trans (congrArg (·[t]?) ?_) hsame
    exact markTraders_map (fun _ => rfl) m.exchange p

/-- The flag of a trader moves only when its process is reaped. -/
theorem next_flag (fee : Int → Int) (hS : Sound m.exchange) {i : Input}
    (ht : m.exchange.traders[t]? = some tr) (hi : i ≠ .poll tr.traderPid true) :
    (doors (mainNext fee m i).exchange.traders)[t]? = some (tr.traderPid, tr.disconnected) := by
  have hsame : (doors m.exchange.traders)[t]? = some (tr.traderPid, tr.disconnected) := by
    rw [doors, List.getElem?_map, ht]
    rfl
  refine (mainNext_inv
    (I := fun e => (doors e.traders)[t]? = some (tr.traderPid, tr.disconnected))
    (fun e side r b o best _ hd _ => ?_) hS ?_ ?_ ?_ ?_ ?_).2
  · rw [doors_match]
    exact hd
  · exact fun s o _ _ => by rw [doors_enter]; exact hsame
  · exact fun s k o old _ _ => by rw [doors_replace]; exact hsame
  · exact fun _ => hsame
  · exact fun r o _ _ _ => hsame
  · intro p hp
    have hne : (tr.traderPid : Int) ≠ p := fun he => hi (by rw [hp, he])
    show (doors (m.exchange.traders.map _))[t]? = _
    rw [doors, List.getElem?_map, List.getElem?_map, ht, Option.map_some, Option.map_some,
      if_neg hne]

end Counts

/-! ## 5. A BUY with the next id -/

section Buy

variable {m : Main} {t : Nat} {tr : Trader}

theorem readMessage_buy {argv products : List Word} (n : Nat) {item : Word} (hitem : Plain item)
    (hlisted : item ∈ products) (quantity unitPrice : Int) (hl : argv.length = commandArgc) :
    readMessage (cutAt ';' (buyText n item quantity unitPrice)) argv products =
      (.ORDER_RECEIVED,
        ["BUY".toList, itoa n, item, itoa quantity, itoa unitPrice] ++ argv.drop 5) := by
  have hw : ∀ w ∈ ["BUY".toList, itoa n, item, itoa quantity, itoa unitPrice], Plain w := by
    simp only [List.forall_mem_cons, List.not_mem_nil, false_implies, implies_true, and_true]
    exact ⟨plain_word _ (by decide), plain_itoa _, hitem, plain_itoa _, plain_itoa _⟩
  have hsplit := splitMessage_sent hw (List.cons_ne_nil _ _) (Nat.le_refl 5)
    (by rw [hl]; decide : 5 ≤ argv.length)
  unfold readMessage
  rw [buyText_eq, hsplit]
  show (if "BUY".toList = "SELL".toList ∨ "BUY".toList = "BUY".toList then
    if 5 ≠ 5 then _ else if item ∈ products then _ else _ else _) = _
  rw [if_pos (Or.inr rfl), if_neg (by decide), if_pos hlisted]
  rfl

/-- **The exchange accepts a BUY that carries its `order_count`.** -/
theorem buy_accepted (fee : Int → Int) (hnd : (m.exchange.traders.map (·.traderPid)).Nodup)
    (hargv : m.marketArgv.length = commandArgc) (hrun : m.exchangeDisconnect = false)
    (ht : m.exchange.traders[t]? = some tr) (hconn : tr.disconnected = false) {item : Word}
    (hitem : Plain item) (hlisted : item ∈ m.exchange.products) {quantity unitPrice : Int}
    (hq : InRange quantity) (hp : InRange unitPrice) :
    ∃ o argv,
      entryOf m (.command tr.traderPid (buyText tr.orderCount item quantity unitPrice)) =
        .new t o ∧
      newOrder argv t tr (orderTypeOf (argAt argv 0)) = some o ∧
      mainStep fee m (.command tr.traderPid (buyText tr.orderCount item quantity unitPrice)) =
        orderReceived fee m argv t tr.traderPid tr := by
  have hmsg : readMessage (messageOf tr (buyText tr.orderCount item quantity unitPrice))
      m.marketArgv m.exchange.products = (.ORDER_RECEIVED,
        ["BUY".toList, itoa tr.orderCount, item, itoa quantity, itoa unitPrice] ++
          m.marketArgv.drop 5) := by
    unfold messageOf
    rw [hconn]
    exact readMessage_buy _ hitem hlisted _ _ hargv
  obtain ⟨hqn, hqv⟩ := hq.read_back
  obtain ⟨hpn, hpv⟩ := hp.read_back
  obtain ⟨o, hnew⟩ : ∃ o, newOrder (["BUY".toList, itoa tr.orderCount, item, itoa quantity,
      itoa unitPrice] ++ m.marketArgv.drop 5) t tr (orderTypeOf "BUY".toList) = some o := by
    refine ⟨_, newOrder_eq_some.mpr ⟨.BUY, by decide, isNumeric_itoa _, hqn, hpn, atoi_itoa_le _,
      ?_, ?_, ?_, ?_, rfl⟩⟩
    · show 1 ≤ atoi (itoa quantity)
      rw [hqv]
      exact hq.1
    · show atoi (itoa quantity) ≤ maxQuantity
      rw [hqv]
      exact hq.2
    · show 1 ≤ atoi (itoa unitPrice)
      rw [hpv]
      exact hp.1
    · show atoi (itoa unitPrice) ≤ maxUnitPrice
      rw [hpv]
      exact hp.2
  have hfind := findTrader_eq hnd ht
  refine ⟨o, _, ?_, hnew, ?_⟩
  · have hentry := messageEntry_eq_new.mpr ⟨rfl, _, hmsg, hnew⟩
    simp only [entryOf, hrun, Bool.false_eq_true, if_false, hfind, ht, hentry]
  · simp only [mainStep, hrun, Bool.false_eq_true, if_false, hfind, ht]
    exact handleMessage_order hmsg

end Buy

/-! ## 6. The invariant -/

/-- BUYs the exchange accepts, with the ids from `n` on. -/
def Buys (products : List Word) : Nat → List (List Char) → Prop
  | _, [] => True
  | n, text :: rest =>
      (∃ item quantity unitPrice, Plain item ∧ item ∈ products ∧ InRange quantity ∧
        InRange unitPrice ∧ text = buyText n item quantity unitPrice) ∧ Buys products (n + 1) rest

theorem buys_snoc {products : List Word} {item : Word} {quantity unitPrice : Int}
    (hitem : Plain item) (hlisted : item ∈ products) (hq : InRange quantity)
    (hp : InRange unitPrice) {l : List (List Char)} {n k : Nat} (hk : k = n + l.length)
    (h : Buys products n l) : Buys products n (l ++ [buyText k item quantity unitPrice]) := by
  induction l generalizing n with
  | nil =>
      rw [List.length_nil, Nat.add_zero] at hk
      subst hk
      exact ⟨⟨item, quantity, unitPrice, hitem, hlisted, hq, hp, rfl⟩, trivial⟩
  | cons text rest ih =>
      rw [List.length_cons] at hk
      exact ⟨h.1, ih (by omega) h.2⟩

/-- What the exchange keeps by itself. -/
structure ExchangeOk (products : List Word) (pids : List Nat) (m : Main) : Prop where
  ok : MainOk m
  argv : m.marketArgv.length = commandArgc
  items : ∀ (k : Nat) (o : Order), m.exchange.orderbook[k]? = some o → Plain o.item
  products : m.exchange.products = products
  pids : m.exchange.traders.map (·.traderPid) = pids

theorem exchangeOk_next (fee : Int → Int) {products : List Word} {pids : List Nat} {m : Main}
    (h : ExchangeOk products pids m) (i : Input) : ExchangeOk products pids (mainNext fee m i) :=
  ⟨mainOk_next fee h.ok i, (next_argv fee m i).trans h.argv,
    items_next fee h.ok.sound h.argv h.items i, (next_products fee h.ok.sound i).trans h.products,
    (next_pids fee h.ok.sound i).trans h.pids⟩

theorem exchangeOk_init (products : List Word) (pids : List Nat) {argv : List Word}
    (hargv : argv.length = commandArgc) : ExchangeOk products pids (mainInit products pids argv) :=
  ⟨mainOk_init products pids argv, hargv, fun k o ho => (by cases ho), rfl,
    by simp [mainInit, instTrader, Function.comp_def]⟩

/-- **The two counters are in step**: `orderID` is `order_count` plus the BUYs under way, which
    carry the ids in between; and everything under way to pe_trader is a notice. -/
structure Synced (t pid : Nat) (products : List Word) (pids : List Nat) (s : Net) : Prop where
  exchange : ExchangeOk products pids s.main
  argv : s.trader.marketArgv.length = commandArgc
  notices : ∀ text ∈ s.toTrader, Notice products text
  counters : ∃ tr, s.main.exchange.traders[t]? = some tr ∧ tr.traderPid = pid ∧
    (tr.disconnected = true → s.trader.disconnect = true ∧ s.toExchange = []) ∧
    s.trader.orderID = tr.orderCount + s.toExchange.length ∧
    Buys products tr.orderCount s.toExchange

section Steps

variable {fee : Int → Int} {t pid : Nat} {products : List Word} {pids : List Nat} {s : Net}

theorem synced_init (products : List Word) {pids : List Nat} (hpid : pids[t]? = some pid)
    {argv argv' : List Word} (hargv : argv.length = commandArgc)
    (hargv' : argv'.length = commandArgc) :
    Synced t pid products pids (netInit products pids argv argv') := by
  refine ⟨exchangeOk_init products pids hargv, hargv', fun text h => ?_,
    instTrader pid products.length, ?_, rfl, fun h => (by cases h), rfl, trivial⟩
  · rw [List.mem_singleton.mp h]
    exact .opening
  · show (pids.map _)[t]? = _
    rw [List.getElem?_map, hpid]
    rfl

/-- Another input of the exchange. -/
theorem synced_exchange (hs : Synced t pid products pids s) {i : Input} (hi : Foreign pid s i) :
    Synced t pid products pids (s.stepped t (mainStep fee s.main i)) := by
  obtain ⟨hex, hargv, hnot, tr, ht, hpid, hflag, hid, hbuys⟩ := hs
  have hother : senderOf s.main i ≠ some t := by
    intro h
    cases i with
    | poll p exited => cases h
    | command p text => exact hi ((findTrader_pid h ht).symm.trans hpid)
  have hentry : newOrdersOf t (entryOf s.main i) = 0 := by
    cases he : entryOf s.main i with
    | none => rfl
    | amended u k o => rfl
    | new u o =>
        refine if_neg fun hu => hother ?_
        subst hu
        obtain ⟨_, _, _, _, rfl, -, hf, -⟩ := entryOf_eq_new fee he
        exact hf
  have hcount := next_count fee hex.ok.sound i ht
  rw [hentry, Nat.add_zero, List.getElem?_map] at hcount
  obtain ⟨tr', ht', hc⟩ := Option.map_eq_some_iff.mp hcount
  have hpid' : tr'.traderPid = pid := by
    have h1 := congrArg (·[t]?) (next_pids fee hex.ok.sound i)
    simp only [List.getElem?_map, ht', ht, Option.map_some, Option.some.injEq] at h1
    exact h1.trans hpid
  refine ⟨exchangeOk_next fee hex i, hargv, fun text h => ?_, tr', ht', hpid', fun hd => ?_,
    by rw [hc]; exact hid, by rw [hc]; exact hbuys⟩
  · rcases List.mem_append.mp h with h | h
    · exact hnot text h
    · rw [← hex.products]
      exact notice_other hex.ok hex.argv hex.items hother (mem_writtenTo.mp h)
  · by_cases hpoll : i = .poll tr.traderPid true
    · subst hpoll
      exact hi rfl (by rw [hpid])
    · have hdoor := next_flag fee hex.ok.sound ht hpoll
      rw [doors, List.getElem?_map, ht', Option.map_some] at hdoor
      have hflag' := (Prod.mk.inj (Option.some.inj hdoor)).2
      exact hflag (hflag'.symm.trans hd)

/-- The next message of pe_trader is a BUY with the next id, and the exchange accepts it. -/
theorem synced_head (fee : Int → Int) (hpids : pids.Nodup) (hs : Synced t pid products pids s)
    (hrun : s.main.exchangeDisconnect = false) {text : List Char} {rest : List (List Char)}
    (hcons : s.toExchange = text :: rest) :
    ∃ tr item quantity unitPrice o argv, s.main.exchange.traders[t]? = some tr ∧
      tr.traderPid = pid ∧ tr.disconnected = false ∧
      s.trader.orderID = tr.orderCount + 1 + rest.length ∧ Buys products (tr.orderCount + 1) rest ∧
      text = buyText tr.orderCount item quantity unitPrice ∧
      entryOf s.main (.command pid text) = .new t o ∧
      newOrder argv t tr (orderTypeOf (argAt argv 0)) = some o ∧
      mainStep fee s.main (.command pid text) = orderReceived fee s.main argv t pid tr := by
  obtain ⟨hex, -, -, tr, ht, rfl, hflag, hid, hbuys⟩ := hs
  rw [hcons] at hflag hid hbuys
  obtain ⟨⟨item, quantity, unitPrice, hitem, hlisted, hq, hp, rfl⟩, hrest⟩ := hbuys
  have hconn : tr.disconnected = false := Bool.eq_false_iff.mpr fun hd => by cases (hflag hd).2
  rw [← hex.products] at hlisted
  obtain ⟨o, argv, hentry, hnew, hstep⟩ := buy_accepted fee (by rw [hex.pids]; exact hpids) hex.argv
    hrun ht hconn hitem hlisted hq hp
  rw [List.length_cons] at hid
  exact ⟨tr, item, quantity, unitPrice, o, argv, ht, rfl, hconn, by omega, hrest, rfl, hentry, hnew,
    hstep⟩

/-- **The next BUY of pe_trader carries the `order_count` of the exchange.** -/
theorem synced_agree (hpids : pids.Nodup) (hs : Synced t pid products pids s) :
    IdsAgree fee t pid s := by
  intro text htext hrun
  obtain ⟨rest, hcons⟩ := List.head?_eq_some_iff.mp htext
  obtain ⟨tr, item, quantity, unitPrice, o, argv, ht, -, -, -, -, hbuy, -, hnew, hstep⟩ :=
    synced_head fee hpids hs hrun hcons
  refine ⟨tr.orderCount, item, quantity, unitPrice, o.orderId, by rw [ht]; rfl, hbuy, ?_⟩
  rw [hstep, orderReceived_some hnew]
  rfl

/-- The exchange handles the next BUY. -/
theorem synced_receive (hpids : pids.Nodup) (hs : Synced t pid products pids s) :
    Synced t pid products pids (netReceive fee t pid s) := by
  unfold netReceive
  split
  · exact hs
  · rename_i text rest hcons
    split
    · exact hs
    · rename_i hrun
      obtain ⟨tr, item, quantity, unitPrice, o, argv, ht, rfl, hconn, hid, hrest, -, hentry, hnew,
        hstep⟩ := synced_head fee hpids hs (Bool.eq_false_iff.mpr hrun) hcons
      obtain ⟨hex, hargv, hnot, -⟩ := hs
      have hcount := next_count fee hex.ok.sound (.command tr.traderPid text) ht
      rw [hentry, List.getElem?_map, show newOrdersOf t (.new t o) = 1 from if_pos rfl] at hcount
      obtain ⟨tr', ht', hc⟩ := Option.map_eq_some_iff.mp hcount
      have hdoor := next_flag fee hex.ok.sound ht (i := .command tr.traderPid text)
        (fun h => by cases h)
      rw [doors, List.getElem?_map, ht', Option.map_some] at hdoor
      obtain ⟨hpid', hflag'⟩ := Prod.mk.inj (Option.some.inj hdoor)
      refine ⟨exchangeOk_next fee hex _, hargv, fun x h => ?_, tr', ht', hpid', fun hd => ?_,
        by rw [hc]; exact hid, by rw [hc]; exact hrest⟩
      · rcases List.mem_append.mp h with h | h
        · exact hnot x h
        · -- its own order is not broadcast to it
          have hw := mem_writtenTo.mp h
          rw [hstep, orderReceived_some hnew] at hw
          rcases List.mem_append.mp hw with hw | hw
          · rcases List.mem_append.mp hw with hw | hw
            · rw [(write_notify.mp hw).2]
              exact .accepted o.orderId
            · exact absurd rfl (write_broadcast hw).1
          · obtain ⟨i, q, rfl⟩ := write_loop _ hw
            exact .fill i q
      · rw [hflag', hconn] at hd
        cases hd

/-- An order that pe_trader answers. -/
theorem answers_market {p : PeTrader} (hargv : p.marketArgv.length = commandArgc) {side : OrderType}
    {item : Word} (hitem : Plain item) {quantity unitPrice : Int} (hq : InRange quantity)
    (hp : InRange unitPrice)
    (h : Answers p (marketText (typeText side) item quantity unitPrice)) :
    1000 ≤ quantity ∨ side = .SELL := by
  unfold Answers at h
  rw [readFromExc_market hargv side hitem] at h
  simpa only [processOrder_market side item hq hp] using h

/-- A cancelled order is none. -/
theorem not_answers_cancelled {p : PeTrader} (hargv : p.marketArgv.length = commandArgc)
    {side : OrderType} {item : Word} (hitem : Plain item) :
    ¬ Answers p (marketText (typeText side) item 0 0) := by
  intro h
  unfold Answers at h
  rw [readFromExc_market hargv side hitem] at h
  simp only [processOrder_cancelled side item] at h

/-- pe_trader handles its next message. -/
theorem synced_trader (hs : Synced t pid products pids s) (hin : InStep s .trader) :
    Synced t pid products pids (netTrader s) := by
  have hs' := hs
  obtain ⟨hex, hargv, hnot, tr, ht, hpid, hflag, hid, hbuys⟩ := hs
  unfold netTrader
  split
  · exact hs'
  · rename_i text rest hcons
    split
    · exact hs'
    · rename_i hd
      have hd' : s.trader.disconnect = false := Bool.eq_false_iff.mpr hd
      have hconn : tr.disconnected = true → False := fun h => hd (hflag h).1
      have hans : Answers s.trader text := hin hd' text (by rw [hcons]; rfl)
      have hrest : ∀ x ∈ rest, Notice products x :=
        fun x hx => hnot x (by rw [hcons]; exact List.mem_cons_of_mem _ hx)
      -- a round that sends nothing and leaves `orderID` alone
      have hidle : ∀ {p : PeTrader}, traderStep s.trader text = (p, []) →
          p.marketArgv.length = commandArgc → p.orderID = s.trader.orderID →
          Synced t pid products pids { s with
            trader := (traderStep s.trader text).1
            toTrader := rest
            toExchange := s.toExchange ++ (traderStep s.trader text).2 } := by
        intro p hstep hp hpid'
        rw [hstep]
        simp only [List.append_nil]
        exact ⟨hex, hp, hrest, tr, ht, hpid, fun h => (hconn h).elim, hpid'.trans hid, hbuys⟩
      cases hnot text (by rw [hcons]; exact List.mem_cons_self) with
      | opening => exact hidle (traderStep_open hd') hargv rfl
      | accepted i =>
          obtain ⟨argv, hlen, hstep⟩ := traderStep_valid hd' hargv (Or.inl ⟨i, rfl⟩)
          exact hidle hstep hlen rfl
      | fill i q =>
          obtain ⟨argv, hlen, hstep⟩ := traderStep_valid hd' hargv (Or.inr ⟨i, q, rfl⟩)
          exact hidle hstep hlen rfl
      | cancelled side hitem => exact absurd hans (not_answers_cancelled hargv hitem)
      | market side hitem hlisted hq hp =>
          obtain ⟨argv, hlen, hstep⟩ := traderStep_market hd' hargv side hitem hq hp
          rcases answers_market hargv hitem hq hp hans with hlarge | hsell
          · rw [if_pos hlarge] at hstep
            exact hidle hstep hlen rfl
          · rename_i item quantity unitPrice
            by_cases hlarge : quantity ≥ 1000
            · rw [if_pos hlarge] at hstep
              exact hidle hstep hlen rfl
            · rw [if_neg hlarge, if_pos hsell] at hstep
              simp only [hstep]
              refine ⟨hex, hlen, hrest, tr, ht, hpid, fun h => (hconn h).elim, ?_, ?_⟩
              · show s.trader.orderID + 1 = tr.orderCount + (s.toExchange ++ [_]).length
                rw [List.length_append, List.length_singleton]
                omega
              · exact buys_snoc hitem hlisted hq hp hid hbuys

/-- **Every step in which pe_trader is handed an order it answers keeps the counters in step.** -/
theorem synced_next (hpids : pids.Nodup) (hs : Synced t pid products pids s) (a : NetAct)
    (hin : InStep s a) : Synced t pid products pids (netNext fee t pid s a) := by
  cases a with
  | receive => exact synced_receive hpids hs
  | exchange i =>
      show Synced t pid products pids (if Foreign pid s i then _ else s)
      split
      · rename_i hi
        exact synced_exchange hs hi
      · exact hs
  | trader => exact synced_trader hs hin

end Steps

/-! ## 7. Every run -/

/-- **Trader and exchange agree on the next order id** in every state of a run in which pe_trader
    is handed no broadcast of a BUY below 1000 and none of a cancelled order. -/
theorem ids_agree (fee : Int → Int) (products : List Word) (pids : List Nat) (hpids : pids.Nodup)
    (t pid : Nat) (hpid : pids[t]? = some pid) (argv argv' : List Word)
    (hargv : argv.length = commandArgc) (hargv' : argv'.length = commandArgc)
    (acts : List NetAct)
    (h : AllSteps (netNext fee t pid) InStep (netInit products pids argv argv') acts) :
    Always (netNext fee t pid) (IdsAgree fee t pid) (netInit products pids argv argv') acts :=
  always_mono (fun _ hs => synced_agree hpids hs) acts
    (always_of_allSteps (fun _ a hs hin => synced_next hpids hs a hin) acts
      (synced_init products hpid hargv hargv') h)

/-- Another trader sells twice, and pe_trader answers both. -/
theorem ids_agree_twoSells :
    Always (netNext (· / 100) 0 10) (IdsAgree (· / 100) 0 10)
      (netInit ["GPU".toList] [10, 11] (List.replicate 6 []) (List.replicate 6 []))
      [.trader, .exchange (.command 11 "SELL 0 GPU 4 100;".toList), .trader,
        .exchange (.command 11 "SELL 1 GPU 5 90;".toList), .trader, .receive, .receive] :=
  ids_agree (· / 100) ["GPU".toList] [10, 11] (by decide) 0 10 rfl (List.replicate 6 [])
    (List.replicate 6 []) rfl rfl _ (by decide +kernel)

/-- Another trader buys, and then sells: pe_trader answers the SELL with the id 1, while its
    `order_count` is 0, and the exchange answers INVALID. -/
theorem ids_disagree :
    let acts : List NetAct :=
      [.trader, .exchange (.command 11 "BUY 0 GPU 4 100;".toList), .trader,
        .exchange (.command 11 "SELL 1 GPU 5 120;".toList), .trader]
    let s := run (netNext (· / 100) 0 10)
      (netInit ["GPU".toList] [10, 11] (List.replicate 6 []) (List.replicate 6 [])) acts
    s.toExchange = ["BUY 1 GPU 5 120;".toList] ∧
    (s.main.exchange.traders[0]?).map Trader.orderCount = some 0 ∧
    (mainStep (· / 100) s.main (.command 10 "BUY 1 GPU 5 120;".toList)).2 =
      [.write 0 invalidText, .kill 10] ∧
    ¬ Always (netNext (· / 100) 0 10) (IdsAgree (· / 100) 0 10)
      (netInit ["GPU".toList] [10, 11] (List.replicate 6 []) (List.replicate 6 [])) acts := by
  intro acts s
  have hsent : s.toExchange = ["BUY 1 GPU 5 120;".toList] := by decide +kernel
  have hreply : (mainStep (· / 100) s.main (.command 10 "BUY 1 GPU 5 120;".toList)).2 =
      [.write 0 invalidText, .kill 10] := by decide +kernel
  refine ⟨hsent, by decide +kernel, hreply, fun h => ?_⟩
  obtain ⟨n, item, quantity, unitPrice, orderId, -, -, hhead⟩ :=
    always_last acts h "BUY 1 GPU 5 120;".toList (congrArg List.head? hsent) (by decide +kernel)
  have hinv : some (Event.write 0 invalidText) = some (.write 0 (acceptedText orderId)) :=
    (congrArg List.head? hreply).symm.trans hhead
  have htext := (Event.write.inj (Option.some.inj hinv)).2
  have hfirst : some 'I' = some 'A' := congrArg List.head? htext
  exact absurd hfirst (by decide)

end SysProg.Pe
