/-
  File:      SysProg/Pe/Asks.lean
  Subject:   WHAT A COMMAND ASKS OF THE ENGINE (`askOf`, Engine.lean), and
             what of the state decides it.

  A BUY or SELL looks at the product list and at the flag and `order_count`
  of its sender; a CANCEL at even less. An AMEND also looks for the oldest
  order with its id, which in a numbered exchange is the open one exactly if
  there is no other version of it.

  * `askOf_iff` -- the three requests, by the words of the message;
  * `cards`, `next_cards` -- who entered what, from step to step;
  * `Amendable` -- what an AMEND looks for;
  * `asks_other`, `askOf_same` -- states that ask the same.
-/
import SysProg.Pe.Amend
import SysProg.Pe.EngineRun

namespace SysProg.Pe

open Lib

/-! ## 1. The three requests -/

section Words

variable (ws : List Word) {t : Nat} {tr : Trader}

theorem newOrder_words (h5 : ws.length = 5) (rest : List Word) (type : Option OrderType) :
    newOrder (ws ++ rest) t tr type = newOrder ws t tr type := by
  unfold newOrder
  rw [argAt_append (by omega), argAt_append (by omega), argAt_append (by omega),
    argAt_append (by omega)]

theorem amendLoop_words (h4 : ws.length = 4) (rest : List Word) (l : List Order) (i : Nat) :
    amendLoop (ws ++ rest) t tr l i = amendLoop ws t tr l i := by
  induction l generalizing i with
  | nil => rfl
  | cons o l ih =>
      unfold amendLoop
      rw [ih, argAt_append (by omega), argAt_append (by omega), argAt_append (by omega)]

theorem amendSearch_words (h4 : ws.length = 4) (rest : List Word) (e : Exchange) :
    amendSearch (ws ++ rest) e t tr = amendSearch ws e t tr := by
  unfold amendSearch
  rw [amendLoop_words ws h4, argAt_append (by omega), argAt_append (by omega),
    argAt_append (by omega)]

end Words

/-- What the message `text` of trader `s` asks of the engine. -/
inductive Asks (e : Exchange) (s : Nat) (tr : Trader) (text : List Char) : Ask → Prop where
  | enter {ws : List Word} {o : Order}
      (hr : Reads e.products (messageOf tr text) .ORDER_RECEIVED ws)
      (hnew : newOrder ws s tr (orderTypeOf (argAt ws 0)) = some o) :
      Asks e s tr text (.enter (quote o))
  | replace {ws : List Word} {k : Nat} {o : Order}
      (hr : Reads e.products (messageOf tr text) .AMEND_REQUEST ws)
      (hs : amendSearch ws e s tr = some (k, o)) : Asks e s tr text (.replace (quote o))
  | withdraw {ws : List Word} (hr : Reads e.products (messageOf tr text) .CANCEL_REQUEST ws)
      (hnum : isNumeric (argAt ws 1) = true) :
      Asks e s tr text (.withdraw (s, atoi (argAt ws 1)))

def messageAsk (m : Main) (s : Nat) (tr : Trader) (text : List Char) : Option Ask :=
  match messageEntry m s tr text with
  | .new _ o => some (.enter (quote o))
  | .amended _ _ o => some (.replace (quote o))
  | .none => (messageWithdrawal m s tr text).map .withdraw

section Requests

variable {m : Main} {pid s : Nat} {tr : Trader} {text : List Char} {a : Ask} {st : MessageState}
  {ws : List Word}

theorem askOf_command (hrun : m.exchangeDisconnect = false)
    (hf : findTrader m.exchange.traders pid = some s) (htr : m.exchange.traders[s]? = some tr) :
    askOf m (.command pid text) = messageAsk m s tr text := by
  unfold askOf messageAsk
  rw [entryOf_command hrun hf htr]
  have hw : withdrawal m (.command pid text) = messageWithdrawal m s tr text := by
    simp only [withdrawal, hrun, Bool.false_eq_true, if_false, hf, htr]
  rewrite [hw]
  rfl

theorem messageAsk_order (hl : m.marketArgv.length = commandArgc)
    (hr : Reads m.exchange.products (messageOf tr text) .ORDER_RECEIVED ws) :
    messageAsk m s tr text =
      (newOrder ws s tr (orderTypeOf (argAt ws 0))).map fun o => .enter (quote o) := by
  have hmsg := readMessage_of_reads hr (show 5 ≤ m.marketArgv.length by rw [hl]; decide)
  cases hr with
  | order side id item quantity price hside hitem h =>
      unfold messageAsk messageEntry messageWithdrawal
      rw [hmsg]
      dsimp only
      rw [newOrder_words [side, id, item, quantity, price] rfl, argAt_append (by simp)]
      cases newOrder [side, id, item, quantity, price] s tr _ <;> rfl

theorem messageAsk_amend (hl : m.marketArgv.length = commandArgc)
    (hr : Reads m.exchange.products (messageOf tr text) .AMEND_REQUEST ws) :
    messageAsk m s tr text =
      (amendSearch ws m.exchange s tr).map fun found => .replace (quote found.2) := by
  have hmsg := readMessage_of_reads hr (show 5 ≤ m.marketArgv.length by rw [hl]; decide)
  cases hr with
  | amend id quantity price h =>
      unfold messageAsk messageEntry messageWithdrawal
      rw [hmsg]
      dsimp only
      rw [amendSearch_words ["AMEND".toList, id, quantity, price] rfl]
      cases amendSearch ["AMEND".toList, id, quantity, price] m.exchange s tr <;> rfl

theorem messageAsk_cancel (hl : m.marketArgv.length = commandArgc)
    (hr : Reads m.exchange.products (messageOf tr text) .CANCEL_REQUEST ws) :
    messageAsk m s tr text =
      if isNumeric (argAt ws 1) then some (.withdraw (s, atoi (argAt ws 1))) else none := by
  have hmsg := readMessage_of_reads hr (show 5 ≤ m.marketArgv.length by rw [hl]; decide)
  cases hr with
  | cancel id h =>
      unfold messageAsk messageEntry messageWithdrawal
      rw [hmsg]
      dsimp only
      rw [argAt_append (by simp)]
      cases isNumeric (argAt ["CANCEL".toList, id] 1) <;> rfl

theorem messageAsk_iff (hl : m.marketArgv.length = commandArgc) :
    messageAsk m s tr text = some a ↔ Asks m.exchange s tr text a := by
  constructor
  · intro h
    obtain ⟨⟨st, argv⟩, hmsg⟩ :
      ∃ p, readMessage (messageOf tr text) m.marketArgv m.exchange.products = p := ⟨_, rfl⟩
    have hreads : st ≠ .INVALID_MESSAGE →
        ∃ ws, Reads m.exchange.products (messageOf tr text) st ws := fun hst =>
      reads_of_readMessage (congrArg Prod.fst hmsg) hst (by rw [hl]; decide)
    cases st with
    | ORDER_RECEIVED =>
        obtain ⟨ws, hr⟩ := hreads (by decide)
        rw [messageAsk_order hl hr] at h
        obtain ⟨o, hnew, rfl⟩ := Option.map_eq_some_iff.mp h
        exact .enter hr hnew
    | AMEND_REQUEST =>
        obtain ⟨ws, hr⟩ := hreads (by decide)
        rw [messageAsk_amend hl hr] at h
        obtain ⟨⟨k, o⟩, hs, rfl⟩ := Option.map_eq_some_iff.mp h
        exact .replace hr hs
    | CANCEL_REQUEST =>
        obtain ⟨ws, hr⟩ := hreads (by decide)
        rw [messageAsk_cancel hl hr] at h
        split at h
        · rename_i hnum
          cases h
          exact .withdraw hr hnum
        · cases h
    | INVALID_MESSAGE =>
        unfold messageAsk messageEntry messageWithdrawal at h
        rw [hmsg] at h
        cases h
  · intro h
    cases h with
    | enter hr hnew => rw [messageAsk_order hl hr, hnew, Option.map_some]
    | replace hr hs => rw [messageAsk_amend hl hr, hs, Option.map_some]
    | withdraw hr hnum => rw [messageAsk_cancel hl hr, if_pos hnum]

/-- **What a command asks**: nothing, or what the message of its sender asks. -/
theorem askOf_iff (hl : m.marketArgv.length = commandArgc) :
    askOf m (.command pid text) = some a ↔ ∃ s tr, m.exchangeDisconnect = false ∧
      findTrader m.exchange.traders pid = some s ∧ m.exchange.traders[s]? = some tr ∧
      Asks m.exchange s tr text a := by
  constructor
  · intro h
    cases hrun : m.exchangeDisconnect with
    | true =>
        simp only [askOf, entryOf, withdrawal, hrun, if_true] at h
        cases h
    | false =>
        cases hf : findTrader m.exchange.traders pid with
        | none =>
            simp only [askOf, entryOf, withdrawal, hf, ite_self] at h
            cases h
        | some s =>
            have hlt : s < m.exchange.traders.length :=
              (List.findIdx?_eq_some_iff_getElem.mp hf).1
            have htr := List.getElem?_eq_getElem hlt
            rw [askOf_command hrun hf htr, messageAsk_iff hl] at h
            exact ⟨s, _, rfl, rfl, htr, h⟩
  · intro h
    obtain ⟨s, tr, hrun, hf, htr, ha⟩ := h
    rw [askOf_command hrun hf htr, messageAsk_iff hl]
    exact ha

end Requests

/-! ## 2. Who entered what -/

/-- Trader and id of an order, its side and its product: what it keeps. -/
def card (o : Order) : (Nat × Int) × OrderType × Word :=
  ((o.trader, o.orderId), o.orderType, o.item)

theorem card_close (o : Order) : card (closeOrder o) = card o := rfl

def cards (book : List Order) : List ((Nat × Int) × OrderType × Word) := book.map card

/-- The card of the order that is entered. -/
def askCards : Option Ask → List ((Nat × Int) × OrderType × Word)
  | some (.enter q) => [(q.key, q.orderType, q.item)]
  | some (.replace q) => [(q.key, q.orderType, q.item)]
  | _ => []

/-- One card at most has the key. -/
def Once (cs : List ((Nat × Int) × OrderType × Word)) (key : Nat × Int) : Prop :=
  cs.Pairwise fun c d => ¬ (c.1 = key ∧ d.1 = key)

section Cards

variable {cs cs' : List ((Nat × Int) × OrderType × Word)} {key : Nat × Int}

theorem once_perm (h : cs'.Perm cs) : Once cs' key ↔ Once cs key :=
  h.pairwise_iff fun h' h'' => h' h''.symm

theorem once_append_other {ds : List ((Nat × Int) × OrderType × Word)}
    (h : ∀ d ∈ ds, d.1 ≠ key) : Once (cs ++ ds) key ↔ Once cs key := by
  unfold Once
  rw [List.pairwise_append]
  refine ⟨fun h' => h'.1, fun h' => ⟨h', ?_, fun c _ d hd hboth => h d hd hboth.2⟩⟩
  exact List.Pairwise.imp_of_mem (fun {c d} hc _ _ hboth => h c hc hboth.1)
    (List.pairwise_of_forall (l := ds) fun _ _ => trivial)

/-- One place at most. -/
theorem Once.place {book : List Order} (h : Once (cards book) key) {j k : Nat} {x y : Order}
    (hj : book[j]? = some x) (hk : book[k]? = some y) (hx : (x.trader, x.orderId) = key)
    (hy : (y.trader, y.orderId) = key) : j = k := by
  have hcard : ∀ {i : Nat} {o : Order}, book[i]? = some o → (cards book)[i]? = some (card o) := by
    intro i o ho
    rw [cards, List.getElem?_map, ho]
    rfl
  obtain ⟨hjl, hjx⟩ := List.getElem?_eq_some_iff.mp (hcard hj)
  obtain ⟨hkl, hky⟩ := List.getElem?_eq_some_iff.mp (hcard hk)
  have hpair := List.pairwise_iff_getElem.mp h
  rcases Nat.lt_trichotomy j k with hlt | heq | hlt
  · refine absurd ⟨?_, ?_⟩ (hpair j k hjl hkl hlt)
    · rw [hjx]
      exact hx
    · rw [hky]
      exact hy
  · exact heq
  · refine absurd ⟨?_, ?_⟩ (hpair k j hkl hjl hlt)
    · rw [hky]
      exact hy
    · rw [hjx]
      exact hx

theorem once_of_place {book : List Order}
    (h : ∀ (j k : Nat) (x y : Order), book[j]? = some x → book[k]? = some y →
      (x.trader, x.orderId) = key → (y.trader, y.orderId) = key → j = k) : Once (cards book) key := by
  refine List.pairwise_iff_getElem.mpr fun j k hj hk hlt hboth => ?_
  unfold cards at hj hk hboth
  rw [List.length_map] at hj hk
  rw [List.getElem_map, List.getElem_map] at hboth
  have := h j k _ _ (List.getElem?_eq_getElem hj) (List.getElem?_eq_getElem hk) hboth.1 hboth.2
  omega

end Cards

theorem cards_of_grows {ob ob' : List Order} (hg : Grows ob ob') (hlen : ob'.length = ob.length) :
    cards ob' = cards ob := by
  refine List.ext_getElem? fun k => ?_
  unfold cards
  rw [List.getElem?_map, List.getElem?_map]
  cases hk : ob[k]? with
  | none =>
      have hk' : ob'[k]? = none := by
        rw [List.getElem?_eq_none_iff] at hk ⊢
        omega
      rw [hk']
  | some o =>
      obtain ⟨o', ho', he⟩ := hg k o hk
      rw [ho', Option.map_some, Option.map_some, card, card, he.trader, he.orderId, he.orderType,
        he.item]

/-- **A step deals the card of what it enters**, and no other. -/
theorem next_cards (fee : Int → Int) {m : Main} (hS : Sound m.exchange) (i : Input) :
    cards (mainNext fee m i).exchange.orderbook =
      cards m.exchange.orderbook ++ askCards (askOf m i) := by
  have hnone : entryOf m i = .none → askCards (askOf m i) = [] := by
    intro h
    unfold askOf
    rw [h]
    cases withdrawal m i <;> rfl
  refine (mainNext_inv (I := fun e => cards e.orderbook =
    cards m.exchange.orderbook ++ askCards (askOf m i))
    (fun e side r b o best _ hc hM => ?_) hS ?_ ?_ ?_ ?_ ?_).2
  · rw [← hc]
    exact cards_of_grows (grows_match fee hM) applyMatch_book_length
  · intro t o h _
    unfold askOf
    rw [h, enterOrder_book, cards, List.map_append]
    rfl
  · intro t k o old h _
    unfold askOf
    rw [h, replaceOrder_book, cards, map_modify_same card_close, List.map_append]
    rfl
  · intro h
    rw [hnone h, List.append_nil]
  · intro r o h _ _
    rw [hnone h, List.append_nil]
    exact map_modify_same card_close _ _
  · intro pid hi
    have h : entryOf m i = .none := by
      rw [hi]
      rfl
    rw [hnone h, List.append_nil]
    rfl

/-! ## 3. What an AMEND looks for -/

/-- An order with the key of `q` waits on its side and for its product, and there is no other
    version of it. -/
structure Amendable (e : Exchange) (q : Quote) : Prop where
  waits : ∃ b ∈ (engineOf e).waiting q.orderType q.item, b.key = q.key
  once : Once (cards e.orderbook) q.key

section Amends

variable {e e' : Exchange} {s : Nat} {tr tr' : Trader} {text : List Char} {a : Ask} {q : Quote}

/-- What waits in a line is an open order of the book. -/
theorem waiting_iff (hI : Indexed e.orderbook) {side : OrderType} {x : Word} {b : Quote} :
    b ∈ (engineOf e).waiting side x ↔ ∃ (k : Nat) (o : Order), e.orderbook[k]? = some o ∧
      o.orderType = side ∧ o.item = x ∧ o.completed = false ∧ quote o = b := by
  show b ∈ (lineOf side x e.orderbook).map quote ↔ _
  rw [List.mem_map]
  constructor
  · intro h
    obtain ⟨o, ho, rfl⟩ := h
    obtain ⟨hmem, hside, hitem, hopen⟩ := ((lined_lineOf hI side x).mem o).mp ho
    exact ⟨_, o, getElem?_index hI hmem, hside, hitem, hopen, rfl⟩
  · intro h
    obtain ⟨k, o, ho, hside, hitem, hopen, rfl⟩ := h
    exact ⟨o, ((lined_lineOf hI side x).mem o).mpr
      ⟨List.mem_of_getElem? ho, hside, hitem, hopen⟩, rfl⟩

/-- What an AMEND replaces. -/
theorem amendable_of_asks (hS : Sound e) (hN : Numbered e) (ht : e.traders[s]? = some tr)
    (h : Asks e s tr text (.replace q)) : Amendable e q := by
  cases h with
  | @replace ws k₀ o hr hs =>
      obtain ⟨_, old, hold⟩ := amendSearch_spec hS.toBookOk ht hs
      have hkey : (old.trader, old.orderId) = (quote o).key :=
        Prod.ext (hold.oldOwner.trans hold.owner.symm) hold.sameId.symm
      refine ⟨⟨quote old, (waiting_iff hS.index).mpr ⟨_, old, hold.place, hold.sameType.symm,
        hold.sameItem.symm, hold.oldOpen, rfl⟩, hkey⟩, once_of_place fun j k x y hj hk hx hy => ?_⟩
      -- each version is neither before the open one nor behind it
      have hsame : ∀ (j : Nat) (x : Order), e.orderbook[j]? = some x →
          (x.trader, x.orderId) = (old.trader, old.orderId) → j = k₀ := by
        intro j x hj hx
        have hxt : x.trader = old.trader := congrArg Prod.fst hx
        have hxid : x.orderId = old.orderId := congrArg Prod.snd hx
        have htr : e.traders[old.trader]? = some tr := by
          rw [hold.oldOwner]
          exact ht
        obtain ⟨i, hi, hold'⟩ := hN.open_entry hS hold.place hold.oldOpen htr
        have hle := (hN.newest _ i _ tr htr hi j x hj hxt (hxid.trans hold')).1
        refine Nat.le_antisymm hle (Nat.le_of_not_lt fun hlt => ?_)
        exact hold.first j x hlt hj (hxt.trans hold.oldOwner) (hxid.trans hold.sameId.symm)
      rw [hsame j x hj (hx.trans hkey.symm), hsame k y hk (hy.trans hkey.symm)]

/-- An AMEND of the same words finds the order that waits. -/
theorem amendSearch_other (hS' : Sound e') (hc : tr'.orderCount = tr.orderCount) {ws : List Word}
    {k : Nat} {o : Order} (hs : amendSearch ws e s tr = some (k, o))
    (hq : Amendable e' (quote o)) :
    ∃ k' o', amendSearch ws e' s tr' = some (k', o') ∧ quote o' = quote o := by
  obtain ⟨old, -, -, -, -, hnew, -⟩ := amendSearch_built hs
  obtain ⟨side, hside, hid, hqn, hpn, hcount, hq1, hq2, hp1, hp2, rfl⟩ := newOrder_eq_some.mp hnew
  cases hside
  obtain ⟨⟨b, hb, hkey⟩, honce⟩ := hq
  obtain ⟨k', x, hx, hxside, hxitem, hxopen, rfl⟩ := (waiting_iff hS'.index).mp hb
  have hxt : x.trader = s := congrArg Prod.fst hkey
  have hxid : x.orderId = atoi (argAt ws 1) := congrArg Prod.snd hkey
  -- the order `newOrder` builds to replace `x`
  have hbuilt : newOrder [typeText x.orderType, argAt ws 1, x.item, argAt ws 2, argAt ws 3] s tr'
      (some x.orderType) = some ⟨x.orderType, x.item, atoi (argAt ws 2), atoi (argAt ws 3), s,
        atoi (argAt ws 1), -1, false⟩ :=
    newOrder_eq_some.mpr ⟨x.orderType, rfl, hid, hqn, hpn, by rw [hc]; exact hcount, hq1, hq2, hp1,
      hp2, rfl⟩
  have hfound : (amendSearch ws e' s tr').isSome = true := by
    have hloop : (amendLoop ws s tr' e'.orderbook 0).isSome = true := by
      refine amendLoop_isSome hx hxopen hxt hxid (fun j y hj hy hyt hyid => ?_)
        (by rw [hbuilt]; rfl)
      have := honce.place hy hx (Prod.ext hyt hyid) hkey
      omega
    have hid' : isNumeric (argAt ws 1) = true := hid
    have hqn' : isNumeric (argAt ws 2) = true := hqn
    have hpn' : isNumeric (argAt ws 3) = true := hpn
    unfold amendSearch
    simp only [hid', hqn', hpn', Bool.not_true, Bool.or_self, Bool.false_eq_true, if_false]
    rw [if_neg (not_or.mpr ⟨?_, ?_⟩), if_neg (not_or.mpr ⟨?_, ?_⟩)]
    · exact hloop
    · exact Int.not_le.mpr hp1
    · exact Int.not_lt.mpr hp2
    · exact Int.not_le.mpr hq1
    · exact Int.not_lt.mpr hq2
  obtain ⟨⟨k'', o'⟩, hs'⟩ := Option.isSome_iff_exists.mp hfound
  obtain ⟨x', hx', hxid', hxt', -, hnew', -⟩ := amendSearch_built hs'
  obtain rfl : k'' = k' := honce.place hx' hx (Prod.ext hxt' hxid') hkey
  rw [hx] at hx'
  cases hx'
  rw [hbuilt] at hnew'
  cases hnew'
  refine ⟨k'', _, hs', ?_⟩
  have hside' : x.orderType = old.orderType := hxside
  have hitem' : x.item = old.item := hxitem
  unfold quote
  simp only [hside', hitem']
  rfl

/-- **The words decide, and what an AMEND looks for.** -/
theorem asks_other (hS' : Sound e') (hp : e'.products = e.products)
    (hd : tr'.disconnected = tr.disconnected) (hc : tr'.orderCount = tr.orderCount)
    (h : Asks e s tr text a) (hq : ∀ q, a = .replace q → Amendable e' q) :
    Asks e' s tr' text a := by
  have hreads : ∀ {st : MessageState} {ws : List Word}, Reads e.products (messageOf tr text) st ws →
      Reads e'.products (messageOf tr' text) st ws := by
    intro st ws hr
    unfold messageOf at hr ⊢
    rw [hp, hd]
    exact hr
  cases h with
  | enter hr hnew =>
      refine .enter (hreads hr) ?_
      rw [newOrder_eq_some] at hnew ⊢
      rw [hc]
      exact hnew
  | replace hr hs =>
      obtain ⟨k', o', hs', ho'⟩ := amendSearch_other hS' hc hs (hq _ rfl)
      rw [← ho']
      exact .replace (hreads hr) hs'
  | withdraw hr hnum => exact .withdraw (hreads hr) hnum

end Amends

/-! ## 4. States that ask the same -/

section Same

variable {m m' : Main} {pid : Nat} {text : List Char} {a : Ask}

theorem askOf_other (hs : SameReading pid m m') (hS' : Sound m'.exchange)
    (h : askOf m (.command pid text) = some a) (hq : ∀ q, a = .replace q → Amendable m'.exchange q) :
    askOf m' (.command pid text) = some a := by
  obtain ⟨s, tr, hrun, hf, htr, ha⟩ := (askOf_iff hs.argv).mp h
  obtain ⟨tr', htr', _, hd⟩ := doors_getElem? hs.traders.symm htr
  have hc := hs.counts s hf
  rw [List.getElem?_map, List.getElem?_map, htr, htr'] at hc
  exact (askOf_iff hs.argv').mpr ⟨s, tr', hs.running.trans hrun,
    (findTrader_doors hs.traders pid).trans hf, htr',
    asks_other hS' hs.products hd (Option.some.inj hc) ha hq⟩

/-- **Two states a command asks the same of.** -/
theorem askOf_same (hs : SameReading pid m m') (hS : Sound m.exchange) (hS' : Sound m'.exchange)
    (h : ∀ q, askOf m (.command pid text) = some (.replace q) → Amendable m'.exchange q)
    (h' : ∀ q, askOf m' (.command pid text) = some (.replace q) → Amendable m.exchange q) :
    askOf m' (.command pid text) = askOf m (.command pid text) := by
  refine Option.ext fun a => ⟨fun ha => ?_, fun ha => ?_⟩
  · refine askOf_other hs.symm hS ha fun q hq => h' q ?_
    rw [ha, hq]
  · refine askOf_other hs hS' ha fun q hq => h q ?_
    rw [ha, hq]

/-- What a command asks to replace is there. -/
theorem amendable_of_askOf {q : Quote} (hl : m.marketArgv.length = commandArgc)
    (hS : Sound m.exchange) (hN : Numbered m.exchange)
    (h : askOf m (.command pid text) = some (.replace q)) : Amendable m.exchange q := by
  obtain ⟨s, tr, _, _, htr, ha⟩ := (askOf_iff hl).mp h
  exact amendable_of_asks hS hN htr ha

end Same

/-! ## 5. The conditions on a run, by what is asked -/

/-- The order to be replaced crosses one order at most, or the first is enough for it. -/
def Engine.Fits (E : Engine) : Option Ask → Prop
  | some (.replace q) => ∀ b c bs, ((E.waiting q.orderType.other q.item).takeWhile fun b =>
      rank q.orderType.other b.unitPrice ≤ rank q.orderType.other q.unitPrice) = b :: c :: bs →
        q.quantity ≤ b.quantity
  | _ => True

/-- The new orders of trader `t`: one, if it asks to enter one. -/
def newOf (t : Nat) : Option Ask → Nat
  | some (.enter q) => if q.trader = t then 1 else 0
  | _ => 0

section Conditions

variable {m : Main} {i : Input}

theorem askOf_none_ne_enter (h : entryOf m i = .none) (q : Quote) :
    askOf m i ≠ some (.enter q) ∧ askOf m i ≠ some (.replace q) := by
  unfold askOf
  rw [h]
  cases withdrawal m i <;> exact ⟨nofun, nofun⟩

theorem amendFits_iff (hI : Indexed m.exchange.orderbook) :
    AmendFits m i ↔ (engineOf m.exchange).Fits (askOf m i) := by
  cases h : entryOf m i with
  | none =>
      refine iff_of_true ?_ ?_
      · unfold AmendFits
        rw [h]
        trivial
      · cases ha : askOf m i with
        | none => trivial
        | some a =>
            cases a with
            | enter q => trivial
            | replace q => exact absurd ha (askOf_none_ne_enter h q).2
            | withdraw key => trivial
  | new t o =>
      unfold AmendFits askOf
      rw [h]
      exact Iff.rfl
  | amended t k o =>
      rw [amendFits_eq h, queue_eq_takeWhile hI]
      unfold askOf
      rw [h]
      show _ ↔ ∀ b c bs, (((lineOf o.orderType.other o.item m.exchange.orderbook).map
        quote).takeWhile _) = b :: c :: bs → o.quantity ≤ b.quantity
      rw [List.takeWhile_map]
      constructor
      · intro hf b c bs hq
        obtain ⟨b', l', hb', rfl, hl'⟩ := List.map_eq_cons_iff.mp hq
        obtain ⟨c', bs', rfl, -, -⟩ := List.map_eq_cons_iff.mp hl'
        exact hf b' c' bs' hb'
      · intro hf b c bs hq
        refine hf (quote b) (quote c) (bs.map quote) ?_
        have hq' := congrArg (List.map quote) hq
        exact hq'

theorem entersNext_iff : EntersNext m i ↔ ∀ q, askOf m i = some (.enter q) →
    ∀ c, (m.exchange.traders.map Trader.orderCount)[q.trader]? = some c → q.orderId = c := by
  cases h : entryOf m i with
  | none =>
      refine iff_of_true ?_ fun q hq => absurd hq (askOf_none_ne_enter h q).1
      unfold EntersNext
      rw [h]
      trivial
  | amended t k o =>
      refine iff_of_true ?_ ?_
      · unfold EntersNext
        rw [h]
        trivial
      · unfold askOf
        rw [h]
        exact nofun
  | new t o =>
      have howner := (entryOf_new h).owner
      unfold EntersNext askOf
      rw [h]
      simp only [Option.mem_def, List.getElem?_map]
      constructor
      · intro hn q hq c hc
        cases hq
        obtain ⟨tr, htr, rfl⟩ := Option.map_eq_some_iff.mp hc
        exact hn tr (howner ▸ htr)
      · intro hn tr htr
        refine hn (quote o) rfl _ ?_
        show (m.exchange.traders[o.trader]?).map _ = _
        rw [howner, htr, Option.map_some]

theorem newOrdersOf_entry (t : Nat) : newOrdersOf t (entryOf m i) = newOf t (askOf m i) := by
  unfold askOf
  cases h : entryOf m i with
  | none => cases withdrawal m i <;> rfl
  | amended s k o => rfl
  | new s o =>
      show (if s = t then 1 else 0) = if o.trader = t then 1 else 0
      rw [(entryOf_new h).owner]

/-- `order_count` goes up with each new order. -/
theorem next_counts (fee : Int → Int) (hS : Sound m.exchange) (t : Nat) :
    ((mainNext fee m i).exchange.traders.map Trader.orderCount)[t]? =
      ((m.exchange.traders.map Trader.orderCount)[t]?).map (· + newOf t (askOf m i)) := by
  cases ht : m.exchange.traders[t]? with
  | some tr =>
      rw [next_count fee hS i ht, List.getElem?_map, ht, newOrdersOf_entry]
      rfl
  | none =>
      have hlen := congrArg List.length (next_pids fee hS i)
      rw [List.length_map, List.length_map] at hlen
      rw [List.getElem?_map, List.getElem?_map, ht]
      rw [List.getElem?_eq_none_iff] at ht
      rw [List.getElem?_eq_none (by omega)]
      rfl

end Conditions

end SysProg.Pe
