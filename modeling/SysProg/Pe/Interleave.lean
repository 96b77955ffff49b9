/-
  File:      SysProg/Pe/Interleave.lean
  Subject:   TRADERS OF DIFFERENT PRODUCTS DO NOT SEE EACH OTHER, however
             their commands interleave.

  The traders are in groups, and each product is the area of one group. The
  order in which the commands of two groups arrive then makes no difference:
  not for the lines, the trades, the positions or the fees. Two commands of
  one group stay in their order.

  The engine (Engine.lean) carries the argument: what it makes of a request
  is a matter of one product. What remains is that a command asks the same
  before and after one of another group (Asks.lean), and that the ledger can
  be read off the deals.

  * `engine_apart` -- requests for different products commute;
  * `Alike` -- states that differ in the order of their book and log only;
  * `alike_next`, `alike_swap` -- one step from two such states, and two steps
    in either order;
  * `positions_alike` -- positions and fees by deals;
  * `interleavings_agree` -- every run.
-/
import SysProg.Lib.Shuffle
import SysProg.Pe.Asks
import SysProg.Pe.Log

namespace SysProg.Pe

open Lib

/-! ## 1. Requests for different products -/

/-- The request is of no concern to product `x`. -/
def Leaves (E : Engine) (x : Word) : Option Ask → Prop
  | none => True
  | some (.enter q) => x ≠ q.item
  | some (.replace q) => x ≠ q.item ∧ ∀ side, ∀ b ∈ E.waiting side x, b.key ≠ q.key
  | some (.withdraw key) => ∀ side, ∀ b ∈ E.waiting side x, b.key ≠ key

/-- The deals a request leads to. -/
def dealsFor (E : Engine) : Option Ask → List Deal
  | none => []
  | some (.enter q) => (q.walk (E.waiting q.orderType.other q.item)).1
  | some (.replace q) => (q.walk ((E.withdraw q.key).waiting q.orderType.other q.item)).1
  | some (.withdraw _) => []

section Products

variable {E E' : Engine} {x : Word} {a b : Option Ask}

theorem answer_deals (E : Engine) (a : Option Ask) :
    (E.answer a).deals = E.deals ++ dealsFor E a := by
  cases a with
  | none => exact (List.append_nil _).symm
  | some a =>
      cases a with
      | enter q => rfl
      | replace q => rfl
      | withdraw key => exact (List.append_nil _).symm

theorem withdraw_leaves {key : Nat × Int} (h : ∀ side, ∀ b ∈ E.waiting side x, b.key ≠ key)
    (side : OrderType) : (E.withdraw key).waiting side x = E.waiting side x :=
  List.filter_eq_self.mpr fun b hb => decide_eq_true (h side b hb)

theorem enter_leaves {q : Quote} (h : x ≠ q.item) (side : OrderType) :
    (E.enter q).waiting side x = E.waiting side x := if_pos h

theorem answer_leaves (h : Leaves E x a) (side : OrderType) :
    (E.answer a).waiting side x = E.waiting side x := by
  cases a with
  | none => rfl
  | some a =>
      cases a with
      | enter q => exact enter_leaves h side
      | replace q => exact (enter_leaves h.1 side).trans (withdraw_leaves h.2 side)
      | withdraw key => exact withdraw_leaves h side

theorem withdraw_local (key : Nat × Int) (h : ∀ side, E'.waiting side x = E.waiting side x)
    (side : OrderType) : (E'.withdraw key).waiting side x = (E.withdraw key).waiting side x := by
  show (E'.waiting side x).filter _ = (E.waiting side x).filter _
  rw [h]

theorem enter_local (q : Quote) (h : ∀ side, E'.waiting side x = E.waiting side x)
    (side : OrderType) : (E'.enter q).waiting side x = (E.enter q).waiting side x := by
  by_cases hx : x = q.item
  · subst hx
    unfold Engine.enter
    simp only [h]
  · rw [enter_leaves hx, enter_leaves hx, h]

/-- The lines of a product after a request are a matter of its lines before. -/
theorem answer_local (a : Option Ask) (h : ∀ side, E'.waiting side x = E.waiting side x)
    (side : OrderType) : (E'.answer a).waiting side x = (E.answer a).waiting side x := by
  cases a with
  | none => exact h side
  | some a =>
      cases a with
      | enter q => exact enter_local q h side
      | replace q => exact enter_local q (withdraw_local q.key h) side
      | withdraw key => exact withdraw_local key h side

/-- So are the deals, for the product that is asked for. -/
theorem dealsFor_local (h : ∀ x, ¬ Leaves E x a → ∀ side, E'.waiting side x = E.waiting side x) :
    dealsFor E' a = dealsFor E a := by
  cases a with
  | none => rfl
  | some a =>
      cases a with
      | enter q =>
          show (q.walk (E'.waiting _ _)).1 = (q.walk (E.waiting _ _)).1
          rw [h q.item fun hl => hl rfl]
      | replace q =>
          show (q.walk ((E'.withdraw _).waiting _ _)).1 = (q.walk ((E.withdraw _).waiting _ _)).1
          rw [withdraw_local q.key (h q.item fun hl => hl.1 rfl)]
      | withdraw key => rfl

theorem fits_local (h : ∀ x, ¬ Leaves E x a → ∀ side, E'.waiting side x = E.waiting side x) :
    E'.Fits a ↔ E.Fits a := by
  cases a with
  | none => exact Iff.rfl
  | some a =>
      cases a with
      | enter q => exact Iff.rfl
      | replace q =>
          dsimp only [Engine.Fits]
          rw [h q.item fun hl => hl.1 rfl]
      | withdraw key => exact Iff.rfl

/-- **Requests for different products commute**, up to the order of the deals. -/
theorem engine_apart (hE : ∀ x, (Leaves E x a ∧ Leaves (E.answer b) x a) ∨
      Leaves E x b ∧ Leaves (E.answer a) x b) :
    ((E.answer b).answer a).waiting = ((E.answer a).answer b).waiting ∧
      ((E.answer b).answer a).deals.Perm ((E.answer a).answer b).deals := by
  constructor
  · funext side x
    rcases hE x with ⟨hx, hx'⟩ | ⟨hx, hx'⟩
    · -- what `b` makes of the product is the same before and after `a`
      rw [answer_leaves hx', answer_local b (answer_leaves hx)]
    · rw [answer_leaves hx', answer_local a (answer_leaves hx)]
  · have hda : dealsFor (E.answer b) a = dealsFor E a := dealsFor_local fun x hx =>
      answer_leaves ((hE x).resolve_left fun h => hx h.1).1
    have hdb : dealsFor (E.answer a) b = dealsFor E b := dealsFor_local fun x hx =>
      answer_leaves ((hE x).resolve_right fun h => hx h.1).1
    rw [answer_deals, answer_deals, answer_deals, answer_deals, hda, hdb, List.append_assoc,
      List.append_assoc]
    exact List.perm_append_comm.append_left _

end Products

/-! ## 2. Groups and their products -/

section Groups

variable {γ : Type*} (group : Nat → γ) (area : Word → γ)

/-- If the command is a new order, it is for a product of its sender's group. -/
def KeepsTo (m : Main) : Input → Prop
  | .poll _ _ => True
  | .command pid text =>
      match entryOf m (.command pid text) with
      | .new _ o => area o.item = group pid
      | _ => True

/-- Commands of different groups. -/
def Apart : Input → Input → Prop
  | .command pid _, .command pid' _ => group pid ≠ group pid'
  | _, _ => False

/-- The orders in the book are for products of their groups. -/
def Grouped (e : Exchange) : Prop :=
  ∀ c ∈ cards e.orderbook, ∀ pid, (e.traders.map (·.traderPid))[c.1.1]? = some pid →
    area c.2.2 = group pid

/-- What process `pid` may ask for. -/
def AsksAsGroup (pids : List Nat) (pid : Nat) : Option Ask → Prop
  | none => True
  | some (.enter q) => pids[q.trader]? = some pid ∧ area q.item = group pid
  | some (.replace q) => pids[q.trader]? = some pid ∧ area q.item = group pid
  | some (.withdraw key) => pids[key.1]? = some pid

def Ask.sender : Ask → Nat
  | .enter q => q.trader
  | .replace q => q.trader
  | .withdraw key => key.1

variable {group area} {e : Exchange} {m : Main} {pid : Nat} {text : List Char}

theorem keepsTo_iff : KeepsTo group area m (.command pid text) ↔
    ∀ q, askOf m (.command pid text) = some (.enter q) → area q.item = group pid := by
  unfold KeepsTo askOf
  dsimp only
  cases entryOf m (.command pid text) with
  | none =>
      refine iff_of_true trivial fun q hq => ?_
      cases hw : withdrawal m (.command pid text) <;> rw [hw] at hq <;> cases hq
  | amended t k o => exact iff_of_true trivial nofun
  | new t o =>
      refine ⟨fun h q hq => ?_, fun h => h (quote o) rfl⟩
      cases hq
      exact h

instance [DecidableEq γ] : (i : Input) → Decidable (KeepsTo group area m i)
  | .poll _ _ => isTrue trivial
  | .command pid text => by
      refine @decidable_of_iff' _ _ keepsTo_iff ?_
      cases askOf m (.command pid text) with
      | none => exact isTrue fun _ h => by cases h
      | some a =>
          cases a with
          | enter q =>
              exact decidable_of_iff (area q.item = group pid)
                ⟨fun h _ hq => (Ask.enter.inj (Option.some.inj hq)) ▸ h, fun h => h q rfl⟩
          | replace q => exact isTrue fun _ h => by cases h
          | withdraw key => exact isTrue fun _ h => by cases h

theorem mem_cards {c : (Nat × Int) × OrderType × Word} :
    c ∈ cards e.orderbook ↔ ∃ (k : Nat) (o : Order), e.orderbook[k]? = some o ∧ card o = c := by
  unfold cards
  rw [List.mem_map]
  constructor
  · intro h
    obtain ⟨o, ho, hc⟩ := h
    obtain ⟨k, hk⟩ := List.mem_iff_getElem?.mp ho
    exact ⟨k, o, hk, hc⟩
  · intro h
    obtain ⟨k, o, hk, hc⟩ := h
    exact ⟨o, List.mem_of_getElem? hk, hc⟩

/-- What waits has its card. -/
theorem card_of_waiting (hI : Indexed e.orderbook) {side : OrderType} {x : Word} {b : Quote}
    (h : b ∈ (engineOf e).waiting side x) : (b.key, side, x) ∈ cards e.orderbook := by
  obtain ⟨k, o, ho, rfl, rfl, -, rfl⟩ := (waiting_iff hI).mp h
  exact mem_cards.mpr ⟨k, o, ho, rfl⟩

/-- No order of the group waits for a product of another. -/
theorem leaves_of_group (hI : Indexed e.orderbook) (hG : Grouped group area e) {a : Option Ask}
    (ha : AsksAsGroup group area (e.traders.map (·.traderPid)) pid a) {x : Word}
    (hx : area x ≠ group pid) : Leaves (engineOf e) x a := by
  have hkeys : ∀ key : Nat × Int, (e.traders.map (·.traderPid))[key.1]? = some pid →
      ∀ side, ∀ b ∈ (engineOf e).waiting side x, b.key ≠ key := by
    intro key hkey side b hb hbk
    refine hx (hG _ (card_of_waiting hI hb) pid ?_)
    rw [hbk]
    exact hkey
  cases a with
  | none => trivial
  | some a =>
      cases a with
      | enter q => exact fun h => hx (h ▸ ha.2)
      | replace q => exact ⟨fun h => hx (h ▸ ha.2), hkeys q.key ha.1⟩
      | withdraw key => exact hkeys key ha

theorem asks_sender {s : Nat} {tr : Trader} {a : Ask} (h : Asks e s tr text a) : a.sender = s := by
  cases h with
  | enter hr hnew =>
      obtain ⟨_, -, -, -, -, -, -, -, -, -, rfl⟩ := newOrder_eq_some.mp hnew
      rfl
  | replace hr hs =>
      obtain ⟨old, -, -, -, -, hnew, -⟩ := amendSearch_built hs
      obtain ⟨_, -, -, -, -, -, -, -, -, -, rfl⟩ := newOrder_eq_some.mp hnew
      rfl
  | withdraw hr hnum => rfl

/-- A command is one of its sender. -/
theorem askOf_sender {a : Ask} (hl : m.marketArgv.length = commandArgc)
    (h : askOf m (.command pid text) = some a) :
    (m.exchange.traders.map (·.traderPid))[a.sender]? = some pid := by
  obtain ⟨s, tr, _, hf, htr, ha⟩ := (askOf_iff hl).mp h
  rw [asks_sender ha, List.getElem?_map, htr, Option.map_some, findTrader_pid hf htr]

/-- What is replaced is the group's. -/
theorem replace_group (hl : m.marketArgv.length = commandArgc) (hS : Sound m.exchange)
    (hN : Numbered m.exchange) (hG : Grouped group area m.exchange) {q : Quote}
    (h : askOf m (.command pid text) = some (.replace q)) : area q.item = group pid := by
  obtain ⟨⟨b, hb, hkey⟩, -⟩ := amendable_of_askOf hl hS hN h
  refine hG _ (card_of_waiting hS.index hb) pid ?_
  rw [hkey]
  exact askOf_sender hl h

/-- A command that keeps to its products asks as its group may. -/
theorem asksAsGroup_of_keepsTo (hl : m.marketArgv.length = commandArgc) (hS : Sound m.exchange)
    (hN : Numbered m.exchange) (hG : Grouped group area m.exchange)
    (h : KeepsTo group area m (.command pid text)) :
    AsksAsGroup group area (m.exchange.traders.map (·.traderPid)) pid
      (askOf m (.command pid text)) := by
  cases ha : askOf m (.command pid text) with
  | none => trivial
  | some a =>
      have hsender := askOf_sender hl ha
      cases a with
      | enter q => exact ⟨hsender, keepsTo_iff.mp h q ha⟩
      | replace q => exact ⟨hsender, replace_group hl hS hN hG ha⟩
      | withdraw key => exact hsender

theorem askCards_sender (hl : m.marketArgv.length = commandArgc)
    {c : (Nat × Int) × OrderType × Word} (hc : c ∈ askCards (askOf m (.command pid text))) :
    (m.exchange.traders.map (·.traderPid))[c.1.1]? = some pid := by
  cases ha : askOf m (.command pid text) with
  | none =>
      rw [ha] at hc
      cases hc
  | some a =>
      have hsender := askOf_sender hl ha
      rw [ha] at hc
      cases a with
      | enter q =>
          rw [List.mem_singleton.mp hc]
          exact hsender
      | replace q =>
          rw [List.mem_singleton.mp hc]
          exact hsender
      | withdraw key => cases hc

theorem newOf_other (hl : m.marketArgv.length = commandArgc) {t : Nat}
    (ht : (m.exchange.traders.map (·.traderPid))[t]? ≠ some pid) :
    newOf t (askOf m (.command pid text)) = 0 := by
  cases ha : askOf m (.command pid text) with
  | none => rfl
  | some a =>
      have hsender := askOf_sender hl ha
      cases a with
      | enter q =>
          refine if_neg fun h => ht ?_
          rw [← h]
          exact hsender
      | replace q => rfl
      | withdraw key => rfl

end Groups

/-! ## 3. The states of such runs -/

/-- A key belongs to one side and one product. -/
def OneCard (cs : List ((Nat × Int) × OrderType × Word)) : Prop :=
  ∀ c ∈ cs, ∀ d ∈ cs, c.1 = d.1 → c = d

/-- The incoming order of each trade came after the one in the book. -/
def InArrivalOrder (ts : List Trade) : Prop := ∀ y ∈ ts, y.orderInBook < y.incomingOrder

section States

variable {γ : Type*} (group : Nat → γ) (area : Word → γ)

/-- The step numbers its order, it fits, and it keeps to its group's products. -/
structure Admits (m : Main) (i : Input) : Prop where
  next : EntersNext m i
  fits : AmendFits m i
  keeps : KeepsTo group area m i

structure Orderly (fee : Int → Int) (m : Main) : Prop where
  ok : MainOk m
  numbered : Numbered m.exchange
  uncrossed : Uncrossed m.exchange.orderbook
  argv : m.marketArgv.length = commandArgc
  grouped : Grouped group area m.exchange
  oneCard : OneCard (cards m.exchange.orderbook)
  later : InArrivalOrder m.exchange.completedTrades
  ledger : Ledger m.exchange
  squared : Squared fee m.exchange

variable {group area} {fee : Int → Int} {m : Main} {i : Input}

/-- One step of the engine. -/
theorem Orderly.engine (h : Orderly group area fee m) (ha : Admits group area m i) :
    engineOf (mainNext fee m i).exchange = (engineOf m.exchange).answer (askOf m i) :=
  (engine_next_iff fee h.ok h.numbered h.uncrossed).mpr ha.fits

/-- The card of what is entered is a new one, or it is that of the order replaced. -/
theorem askCards_cases (h : Orderly group area fee m) (ha : Admits group area m i) :
    ∀ c ∈ askCards (askOf m i), (∀ d ∈ cards m.exchange.orderbook, d.1 ≠ c.1) ∨
      c ∈ cards m.exchange.orderbook := by
  have hS := h.ok.sound
  intro c hc
  cases i with
  | poll pid exited => cases hc
  | command pid text =>
      cases hask : askOf m (.command pid text) with
      | none =>
          rw [hask] at hc
          cases hc
      | some a =>
          rw [hask] at hc
          cases a with
          | withdraw key => cases hc
          | replace q =>
              obtain ⟨⟨b, hb, hkey⟩, -⟩ := amendable_of_askOf h.argv hS h.numbered hask
              rw [List.mem_singleton.mp hc, ← hkey]
              exact Or.inr (card_of_waiting hS.index hb)
          | enter q =>
              refine Or.inl fun d hd hdc => ?_
              obtain ⟨k, o, hk, rfl⟩ := mem_cards.mp hd
              rw [List.mem_singleton.mp hc] at hdc
              have ht : o.trader = q.trader := congrArg Prod.fst hdc
              have hid : o.orderId = q.orderId := congrArg Prod.snd hdc
              obtain ⟨tr, htr⟩ : ∃ tr, m.exchange.traders[o.trader]? = some tr :=
                ⟨_, List.getElem?_eq_getElem (hS.owner k o hk)⟩
              have hlt := h.numbered.orderId_lt hS htr hk rfl
              have hq := entersNext_iff.mp ha.next q hask tr.orderCount
                (by rw [← ht, List.getElem?_map, htr]; rfl)
              omega

theorem inArrivalOrder_next (h : Orderly group area fee m) (ha : Admits group area m i) :
    InArrivalOrder (mainNext fee m i).exchange.completedTrades := by
  have hS := h.ok.sound
  have hadd : ∀ {book : List Order} {o : Order} {ts : List Trade}, Indexed book →
      ts = m.exchange.completedTrades ++ arrivalTrades fee book.length book o →
      InArrivalOrder ts := by
    intro book o ts hI hts y hy
    rw [hts] at hy
    rcases List.mem_append.mp hy with hy | hy
    · exact h.later y hy
    · obtain ⟨hin, b, hb, _⟩ := mem_arrivalTrades hI hy
      rw [hin]
      exact (List.getElem?_eq_some_iff.mp hb).1
  cases he : entryOf m i with
  | new t o => exact hadd hS.index (arrival_log fee hS h.numbered he)
  | amended t k o =>
      obtain ⟨old, hold⟩ := entryOf_amended hS.toBookOk he
      exact hadd (indexed_close hS.index k)
        (amended_arrived fee h.ok h.numbered h.uncrossed he hold ha.fits).2
  | none =>
      rcases next_none_cases fee hS h.numbered he with ⟨r, o, _, _, _, hx⟩ | ⟨_, _, hlog⟩
      · rw [hx]
        exact h.later
      · rw [hlog]
        exact h.later

theorem orderly_next (h : Orderly group area fee m) (ha : Admits group area m i) :
    Orderly group area fee (mainNext fee m i) := by
  have hS := h.ok.sound
  have hcards := next_cards fee hS i
  refine ⟨mainOk_next fee h.ok i, numbered_next fee hS h.numbered ha.next,
    (uncrossed_next fee h.ok h.numbered h.uncrossed).mpr ha.fits, (next_argv fee m i).trans h.argv,
    ?_, ?_, inArrivalOrder_next h ha, ledger_next fee hS h.ledger i, squared_next fee hS h.squared i⟩
  · intro c hc pid hpid
    rw [hcards] at hc
    rw [next_pids fee hS] at hpid
    rcases List.mem_append.mp hc with hc | hc
    · exact h.grouped c hc pid hpid
    · cases i with
      | poll pid' exited => cases hc
      | command pid' text =>
          have hask := asksAsGroup_of_keepsTo h.argv hS h.numbered h.grouped ha.keeps
          -- the sender is the trader on the card
          have hsender : ∀ q : Quote, c = (q.key, q.orderType, q.item) →
              (m.exchange.traders.map (·.traderPid))[q.trader]? = some pid' ∧
                area q.item = group pid' → area c.2.2 = group pid := by
            intro q hq hq'
            subst hq
            have hpid' : some pid = some pid' := hpid.symm.trans hq'.1
            cases hpid'
            exact hq'.2
          cases he : askOf m (.command pid' text) with
          | none =>
              rw [he] at hc
              cases hc
          | some a =>
              rw [he] at hc hask
              cases a with
              | withdraw key => cases hc
              | enter q => exact hsender q (List.mem_singleton.mp hc) hask
              | replace q => exact hsender q (List.mem_singleton.mp hc) hask
  · rw [hcards]
    have hnew := askCards_cases h ha
    have hone : ∀ c ∈ askCards (askOf m i), ∀ d ∈ askCards (askOf m i), c = d := by
      cases askOf m i with
      | none => exact nofun
      | some a =>
          cases a with
          | withdraw key => exact nofun
          | enter q => exact fun c hc d hd =>
              (List.mem_singleton.mp hc).trans (List.mem_singleton.mp hd).symm
          | replace q => exact fun c hc d hd =>
              (List.mem_singleton.mp hc).trans (List.mem_singleton.mp hd).symm
    have hmixed : ∀ c ∈ askCards (askOf m i), ∀ d ∈ cards m.exchange.orderbook, c.1 = d.1 → c = d := by
      intro c hc d hd hcd
      rcases hnew c hc with hno | hmem
      · exact absurd hcd.symm (hno d hd)
      · exact h.oneCard c hmem d hd hcd
    intro c hc d hd hcd
    rcases List.mem_append.mp hc with hc | hc <;> rcases List.mem_append.mp hd with hd | hd
    · exact h.oneCard c hc d hd hcd
    · exact (hmixed d hd c hc hcd.symm).symm
    · exact hmixed c hc d hd hcd
    · exact hone c hc d hd

theorem orderly_init (fee : Int → Int) {products : List Word} (hnd : products.Nodup)
    (pids : List Nat) {argv : List Word} (hargv : argv.length = commandArgc) :
    Orderly group area fee (mainInit products pids argv) where
  ok := mainOk_init products pids argv
  numbered := numbered_init products pids argv
  uncrossed := fun j k a b ha => by cases ha
  argv := hargv
  grouped := fun c hc => by cases hc
  oneCard := fun c hc => by cases hc
  later := fun y hy => by cases hy
  ledger := ledger_init hnd pids argv
  squared := squared_init fee hnd pids argv

end States

/-! ## 4. States that differ in the order of their book and log -/

structure Alike (m m' : Main) : Prop where
  running : m'.exchangeDisconnect = m.exchangeDisconnect
  online : m'.tradersOnline = m.tradersOnline
  products : m'.exchange.products = m.exchange.products
  doors : doors m'.exchange.traders = doors m.exchange.traders
  counts : ∀ t : Nat, (m'.exchange.traders.map Trader.orderCount)[t]? =
    (m.exchange.traders.map Trader.orderCount)[t]?
  cards : (cards m'.exchange.orderbook).Perm (cards m.exchange.orderbook)
  waiting : (engineOf m'.exchange).waiting = (engineOf m.exchange).waiting
  deals : (engineOf m'.exchange).deals.Perm (engineOf m.exchange).deals

section Steps

variable {m m' m'' : Main} {pid : Nat} {text : List Char}

theorem Alike.refl (m : Main) : Alike m m :=
  ⟨rfl, rfl, rfl, rfl, fun _ => rfl, List.Perm.refl _, rfl, List.Perm.refl _⟩

theorem Alike.symm (h : Alike m m') : Alike m' m :=
  ⟨h.running.symm, h.online.symm, h.products.symm, h.doors.symm, fun t => (h.counts t).symm,
    h.cards.symm, h.waiting.symm, h.deals.symm⟩

theorem Alike.trans (h : Alike m m') (h' : Alike m' m'') : Alike m m'' :=
  ⟨h'.running.trans h.running, h'.online.trans h.online, h'.products.trans h.products,
    h'.doors.trans h.doors, fun t => (h'.counts t).trans (h.counts t), h'.cards.trans h.cards,
    h'.waiting.trans h.waiting, h'.deals.trans h.deals⟩

theorem Alike.amendable (h : Alike m m') {q : Quote} (hq : Amendable m.exchange q) :
    Amendable m'.exchange q :=
  ⟨by rw [h.waiting]; exact hq.waits, (once_perm h.cards).mpr hq.once⟩

/-- A poll looks at the doors only. -/
theorem poll_online (m : Main) (pid : Int) (exited : Bool) :
    (pollTraders m pid exited).tradersOnline = m.tradersOnline -
      if exited then ((doors m.exchange.traders).countP fun d => (d.1 : Int) = pid : Int) else 0 := by
  cases exited with
  | false => exact (Int.sub_zero _).symm
  | true =>
      show m.tradersOnline - (m.exchange.traders.countP _ : Int) = _
      rw [doors, List.countP_map]
      rfl

theorem poll_doors (m : Main) (pid : Int) (exited : Bool) :
    doors (pollTraders m pid exited).exchange.traders = (doors m.exchange.traders).map fun d =>
      if exited ∧ (d.1 : Int) = pid then (d.1, true) else d := by
  cases exited with
  | false => exact (List.map_id' _).symm
  | true =>
      show (m.exchange.traders.map _).map _ = _
      rw [doors, List.map_map, List.map_map]
      refine List.map_congr_left fun t _ => ?_
      simp only [Function.comp_apply, true_and]
      split <;> rfl

/-- Main's other variables after a step. -/
theorem alike_doors (fee : Int → Int) (hS : Sound m.exchange) (hS' : Sound m'.exchange)
    (h : Alike m m') (i : Input) :
    (mainNext fee m' i).exchangeDisconnect = (mainNext fee m i).exchangeDisconnect ∧
    (mainNext fee m' i).tradersOnline = (mainNext fee m i).tradersOnline ∧
    doors (mainNext fee m' i).exchange.traders = doors (mainNext fee m i).exchange.traders := by
  cases i with
  | command pid text =>
      obtain ⟨ho, hr⟩ := command_online fee m pid text
      obtain ⟨ho', hr'⟩ := command_online fee m' pid text
      rw [ho, hr, ho', hr', doors_command fee hS, doors_command fee hS']
      exact ⟨h.running, h.online, h.doors⟩
  | poll pid exited =>
      cases hd : m.exchangeDisconnect with
      | true =>
          have hd' := h.running.trans hd
          simp only [mainNext, mainStep, hd, hd', if_true]
          exact ⟨trivial, h.online, h.doors⟩
      | false =>
          have hd' := h.running.trans hd
          have honline : (pollTraders m' pid exited).tradersOnline =
              (pollTraders m pid exited).tradersOnline := by
            rw [poll_online, poll_online, h.online, h.doors]
          simp only [mainNext, mainStep, hd, hd', Bool.false_eq_true, if_false]
          refine ⟨?_, honline, by rw [poll_doors, poll_doors, h.doors]⟩
          show decide ((pollTraders m' pid exited).tradersOnline = 0) =
            decide ((pollTraders m pid exited).tradersOnline = 0)
          rw [honline]

end Steps

section Related

variable {γ : Type*} {group : Nat → γ} {area : Word → γ} {fee : Int → Int} {m m' : Main}
  {i j : Input}

/-- A condition that looks at what is asked, and at the lines and counts it is asked of. -/
theorem admits_of_ask (h : Orderly group area fee m) (h' : Orderly group area fee m')
    (hask : askOf m' i = askOf m i)
    (hcounts : ∀ q, askOf m i = some (.enter q) →
      (m'.exchange.traders.map Trader.orderCount)[q.trader]? =
        (m.exchange.traders.map Trader.orderCount)[q.trader]?)
    (hlines : ∀ x, ¬ Leaves (engineOf m.exchange) x (askOf m i) → ∀ side,
      (engineOf m'.exchange).waiting side x = (engineOf m.exchange).waiting side x) :
    Admits group area m' i ↔ Admits group area m i := by
  have hnext : EntersNext m' i ↔ EntersNext m i := by
    rw [entersNext_iff, entersNext_iff, hask]
    refine forall_congr' fun q => forall_congr' fun hq => ?_
    rw [hcounts q hq]
  have hfits : AmendFits m' i ↔ AmendFits m i := by
    rw [amendFits_iff h.ok.sound.index, amendFits_iff h'.ok.sound.index, hask]
    exact fits_local hlines
  have hkeeps : KeepsTo group area m' i ↔ KeepsTo group area m i := by
    cases i with
    | poll pid exited => exact Iff.rfl
    | command pid text => rw [keepsTo_iff, keepsTo_iff, hask]
  exact ⟨fun ha => ⟨hnext.mp ha.next, hfits.mp ha.fits, hkeeps.mp ha.keeps⟩,
    fun ha => ⟨hnext.mpr ha.next, hfits.mpr ha.fits, hkeeps.mpr ha.keeps⟩⟩

/-- **One step from two such states.** -/
theorem alike_next (h : Orderly group area fee m) (h' : Orderly group area fee m')
    (hA : Alike m m') (ha : Admits group area m i) :
    Admits group area m' i ∧ Alike (mainNext fee m i) (mainNext fee m' i) := by
  have hS := h.ok.sound
  have hS' := h'.ok.sound
  have hask : askOf m' i = askOf m i := by
    cases i with
    | poll pid exited => rfl
    | command pid text =>
        refine askOf_same ⟨hA.running, hA.products, hA.doors, fun s _ => hA.counts s, h.argv, h'.argv⟩
          hS hS' (fun q hq => ?_) fun q hq => ?_
        · exact hA.amendable (amendable_of_askOf h.argv hS h.numbered hq)
        · exact hA.symm.amendable (amendable_of_askOf h'.argv hS' h'.numbered hq)
  have hlines : ∀ x side, (engineOf m'.exchange).waiting side x =
      (engineOf m.exchange).waiting side x := fun x side => by rw [hA.waiting]
  have ha' : Admits group area m' i := (admits_of_ask h h' hask (fun q _ => hA.counts q.trader)
    fun x _ => hlines x).mpr ha
  obtain ⟨hrun, honline, hdoors⟩ := alike_doors fee hS hS' hA i
  refine ⟨ha', hrun, honline, ?_, hdoors, fun t => ?_, ?_, ?_, ?_⟩
  · rw [next_products fee hS, next_products fee hS', hA.products]
  · rw [next_counts fee hS, next_counts fee hS', hask, hA.counts]
  · rw [next_cards fee hS, next_cards fee hS', hask]
    exact hA.cards.append_right _
  · rw [h.engine ha, h'.engine ha', hask]
    funext side x
    exact answer_local _ (hlines x) side
  · rw [h.engine ha, h'.engine ha', hask, answer_deals, answer_deals,
      dealsFor_local fun x _ => hlines x]
    exact hA.deals.append_right _

/-! ## 5. Commands of two groups -/

section TwoGroups

variable {pid pid' : Nat} {text text' : List Char}

/-- Where no group is, another one asks for nothing. -/
theorem Orderly.leaves (h : Orderly group area fee m)
    (ha : KeepsTo group area m (.command pid text)) {x : Word} (hx : area x ≠ group pid) :
    Leaves (engineOf m.exchange) x (askOf m (.command pid text)) :=
  leaves_of_group h.ok.sound.index h.grouped
    (asksAsGroup_of_keepsTo h.argv h.ok.sound h.numbered h.grouped ha) hx

/-- A command of another group leaves what an AMEND looks for. -/
theorem amendable_apart (h : Orderly group area fee m) (ha : Admits group area m (.command pid text))
    {q : Quote} (hitem : area q.item ≠ group pid)
    (ht : (m.exchange.traders.map (·.traderPid))[q.trader]? ≠ some pid) :
    Amendable (mainNext fee m (.command pid text)).exchange q ↔ Amendable m.exchange q := by
  have hwaits : (engineOf (mainNext fee m (.command pid text)).exchange).waiting q.orderType q.item =
      (engineOf m.exchange).waiting q.orderType q.item := by
    rw [h.engine ha]
    exact answer_leaves (h.leaves ha.keeps hitem) _
  have honce : Once (cards (mainNext fee m (.command pid text)).exchange.orderbook) q.key ↔
      Once (cards m.exchange.orderbook) q.key := by
    rw [next_cards fee h.ok.sound]
    refine once_append_other fun d hd hdk => ht ?_
    have hsender := askCards_sender h.argv hd
    rw [hdk] at hsender
    exact hsender
  refine ⟨fun hq => ⟨?_, honce.mp hq.once⟩, fun hq => ⟨?_, honce.mpr hq.once⟩⟩
  · rw [← hwaits]
    exact hq.waits
  · rw [hwaits]
    exact hq.waits

/-- **A command asks the same after one of another group**, and it is admitted as before. -/
theorem ask_apart (h : Orderly group area fee m) (ha : Admits group area m (.command pid text))
    (hne : group pid ≠ group pid') (text' : List Char) :
    askOf (mainNext fee m (.command pid text)) (.command pid' text') =
        askOf m (.command pid' text') ∧
      (Admits group area (mainNext fee m (.command pid text)) (.command pid' text') ↔
        Admits group area m (.command pid' text')) := by
  have hS := h.ok.sound
  have h' := orderly_next h ha
  have hpids := next_pids fee hS (.command pid text)
  have hother : ∀ {t : Nat}, (m.exchange.traders.map (·.traderPid))[t]? = some pid' →
      (m.exchange.traders.map (·.traderPid))[t]? ≠ some pid := by
    intro t ht ht'
    rw [ht] at ht'
    exact hne (congrArg group (Option.some.inj ht').symm)
  have hcounts : ∀ {t : Nat}, (m.exchange.traders.map (·.traderPid))[t]? = some pid' →
      ((mainNext fee m (.command pid text)).exchange.traders.map Trader.orderCount)[t]? =
        (m.exchange.traders.map Trader.orderCount)[t]? := by
    intro t ht
    rw [next_counts fee hS, newOf_other h.argv (hother ht)]
    exact Option.map_id'
  have hask : askOf (mainNext fee m (.command pid text)) (.command pid' text') =
      askOf m (.command pid' text') := by
    refine askOf_same ⟨(command_online fee m pid text).2, next_products fee hS _,
      doors_command fee hS pid text, fun s hs => ?_, h.argv, h'.argv⟩ hS h'.ok.sound
      (fun q hq => ?_) fun q hq => ?_
    · obtain ⟨tr, htr⟩ : ∃ tr, m.exchange.traders[s]? = some tr :=
        ⟨_, List.getElem?_eq_getElem (List.findIdx?_eq_some_iff_getElem.mp hs).1⟩
      refine hcounts ?_
      rw [List.getElem?_map, htr, Option.map_some, findTrader_pid hs htr]
    · have hitem := replace_group h.argv hS h.numbered h.grouped hq
      exact (amendable_apart h ha (hitem ▸ hne.symm) (hother (askOf_sender h.argv hq))).mpr
        (amendable_of_askOf h.argv hS h.numbered hq)
    · have hitem := replace_group h'.argv h'.ok.sound h'.numbered h'.grouped hq
      have hsender := askOf_sender h'.argv hq
      rw [hpids] at hsender
      exact (amendable_apart h ha (hitem ▸ hne.symm) (hother hsender)).mp
        (amendable_of_askOf h'.argv h'.ok.sound h'.numbered hq)
  refine ⟨hask, ?_⟩
  by_cases hk : KeepsTo group area m (.command pid' text')
  · refine admits_of_ask h h' hask (fun q hq => hcounts (askOf_sender h.argv hq)) fun x hx side => ?_
    rw [h.engine ha]
    refine answer_leaves (h.leaves ha.keeps fun hxa => hx (h.leaves hk ?_)) side
    rw [hxa]
    exact hne
  · refine iff_of_false (fun hj => hk ?_) fun hj => hk hj.keeps
    rw [keepsTo_iff, ← hask]
    exact keepsTo_iff.mp hj.keeps

/-- **Two steps of two groups, in either order.** -/
theorem alike_swap (h : Orderly group area fee m) (ha : Admits group area m (.command pid text))
    (hb : Admits group area (mainNext fee m (.command pid text)) (.command pid' text'))
    (hne : group pid ≠ group pid') :
    Admits group area m (.command pid' text') ∧
    Admits group area (mainNext fee m (.command pid' text')) (.command pid text) ∧
    Alike (mainNext fee (mainNext fee m (.command pid text)) (.command pid' text'))
      (mainNext fee (mainNext fee m (.command pid' text')) (.command pid text)) := by
  have hS := h.ok.sound
  obtain ⟨hask, hadm⟩ := ask_apart h ha hne text'
  have hb₀ := hadm.mp hb
  obtain ⟨hask', hadm'⟩ := ask_apart h hb₀ hne.symm text
  have ha' := hadm'.mpr ha
  have hi := orderly_next h ha
  have hj := orderly_next h hb₀
  have hSi := hi.ok.sound
  have hSj := hj.ok.sound
  have hE : ∀ x, (Leaves (engineOf m.exchange) x (askOf m (.command pid text)) ∧
        Leaves ((engineOf m.exchange).answer (askOf m (.command pid' text'))) x
          (askOf m (.command pid text))) ∨
      Leaves (engineOf m.exchange) x (askOf m (.command pid' text')) ∧
        Leaves ((engineOf m.exchange).answer (askOf m (.command pid text))) x
          (askOf m (.command pid' text')) := by
    intro x
    by_cases hx : area x = group pid
    · have hx' : area x ≠ group pid' := hx ▸ hne
      refine Or.inr ⟨h.leaves hb₀.keeps hx', ?_⟩
      rw [← h.engine ha, ← hask]
      exact hi.leaves hb.keeps hx'
    · refine Or.inl ⟨h.leaves ha.keeps hx, ?_⟩
      rw [← h.engine hb₀, ← hask']
      exact hj.leaves ha'.keeps hx
  obtain ⟨hwaiting, hdeals⟩ := engine_apart hE
  refine ⟨hb₀, ha', ?_, ?_, ?_, ?_, fun t => ?_, ?_, ?_, ?_⟩
  · rw [(command_online fee _ _ _).2, (command_online fee _ _ _).2, (command_online fee _ _ _).2,
      (command_online fee _ _ _).2]
  · rw [(command_online fee _ _ _).1, (command_online fee _ _ _).1, (command_online fee _ _ _).1,
      (command_online fee _ _ _).1]
  · rw [next_products fee hSi, next_products fee hSj, next_products fee hS, next_products fee hS]
  · rw [doors_command fee hSi, doors_command fee hSj, doors_command fee hS, doors_command fee hS]
  · rw [next_counts fee hSi, next_counts fee hSj, next_counts fee hS, next_counts fee hS, hask,
      hask', Option.map_map, Option.map_map]
    refine congrArg (fun f => Option.map f _) (funext fun n => ?_)
    exact Nat.add_right_comm n _ _
  · rw [next_cards fee hSi, next_cards fee hSj, next_cards fee hS, next_cards fee hS, hask, hask',
      List.append_assoc, List.append_assoc]
    exact List.perm_append_comm.append_left _
  · rw [hi.engine hb, hj.engine ha', h.engine ha, h.engine hb₀, hask, hask']
    exact hwaiting
  · rw [hi.engine hb, hj.engine ha', h.engine ha, h.engine hb₀, hask, hask']
    exact hdeals

end TwoGroups

end Related

/-! ## 6. The ledger by deals -/

/-- Side and product of the order with the key. -/
def cardOf (cs : List ((Nat × Int) × OrderType × Word)) (key : Nat × Int) :
    Option (OrderType × Word) := (cs.find? fun c => c.1 = key).map Prod.snd

/-- The sum of `f` over the deals of which the order picked belongs to trader `t` and is one for
    product `x`. -/
def dealSum (cs : List ((Nat × Int) × OrderType × Word)) (pick : Deal → Nat × Int)
    (f : Deal → Int) (t : Nat) (x : Word) (ds : List Deal) : Int :=
  (ds.map fun d =>
    if (pick d).1 = t ∧ (cardOf cs (pick d)).map Prod.snd = some x then f d else 0).sum

/-- The order of the deal on the given side. -/
def sideKey (cs : List ((Nat × Int) × OrderType × Word)) (side : OrderType) (d : Deal) : Nat × Int :=
  if (cardOf cs d.incoming).map Prod.fst = some side then d.incoming else d.inBook

section Deals

variable {cs cs' : List ((Nat × Int) × OrderType × Word)} {e : Exchange}

theorem cardOf_of_mem (h : OneCard cs) {c : (Nat × Int) × OrderType × Word} (hc : c ∈ cs) :
    cardOf cs c.1 = some c.2 := by
  unfold cardOf
  cases hf : cs.find? fun d => d.1 = c.1 with
  | none => exact absurd rfl (of_decide_eq_false (Bool.eq_false_iff.mpr
      (List.find?_eq_none.mp hf c hc)))
  | some d =>
      have hd : d.1 = c.1 := by simpa using List.find?_some hf
      rw [h d (List.mem_of_find?_eq_some hf) c hc hd]
      rfl

theorem cardOf_perm (h : OneCard cs) (hp : cs'.Perm cs) : cardOf cs' = cardOf cs := by
  have h' : OneCard cs' := fun c hc d hd => h c (hp.subset hc) d (hp.subset hd)
  funext key
  by_cases hkey : ∃ c ∈ cs, c.1 = key
  · obtain ⟨c, hc, rfl⟩ := hkey
    rw [cardOf_of_mem h hc, cardOf_of_mem h' (hp.symm.subset hc)]
  · have hnone : ∀ ds : List ((Nat × Int) × OrderType × Word), ds ⊆ cs → cardOf ds key = none := by
      intro ds hds
      unfold cardOf
      rw [List.find?_eq_none.mpr fun c hc => ?_]
      · rfl
      · exact fun hck => hkey ⟨c, hds hc, of_decide_eq_true hck⟩
    rw [hnone cs' hp.subset, hnone cs (List.Subset.refl cs)]

/-- The deal of a trade whose orders are in the book. -/
theorem dealOf_eq {book : List Order} {y : Trade} {o b : Order}
    (ho : book[y.incomingOrder]? = some o) (hb : book[y.orderInBook]? = some b) :
    dealOf book y = some ⟨(o.trader, o.orderId), (b.trader, b.orderId), y.transactionQuantity,
      y.transactionPrice⟩ := by
  unfold dealOf keyAt
  rw [ho, hb]
  rfl

/-- **A sum over the log is one over the deals.** -/
theorem sumOver_deals {pick : Order → Order → Order} {pick' : Deal → Nat × Int} {f : Trade → Int}
    {f' : Deal → Int} (hone : OneCard (cards e.orderbook)) (t : Nat) (x : Word) :
    ∀ {ts : List Trade}, (∀ y ∈ ts, ∃ o b d, e.orderbook[y.incomingOrder]? = some o ∧
      e.orderbook[y.orderInBook]? = some b ∧ dealOf e.orderbook y = some d ∧
      card (pick o b) ∈ cards e.orderbook ∧ (card (pick o b)).1 = pick' d ∧ f y = f' d) →
    sumOver pick e.orderbook t x f ts =
      dealSum (cards e.orderbook) pick' f' t x (ts.filterMap (dealOf e.orderbook))
  | [], _ => rfl
  | y :: ts, h => by
      obtain ⟨o, b, d, ho, hb, hd, hmem, hkey, hf⟩ := h y List.mem_cons_self
      have hrest : sumOver pick e.orderbook t x f ts =
          dealSum (cards e.orderbook) pick' f' t x (ts.filterMap (dealOf e.orderbook)) :=
        sumOver_deals hone t x fun y hy => h y (List.mem_cons_of_mem _ hy)
      have hcard := cardOf_of_mem hone hmem
      unfold sumOver dealSum at hrest ⊢
      rw [List.filterMap_cons_some hd, List.map_cons, List.map_cons, List.sum_cons, List.sum_cons,
        hrest, ho, hb, ← hkey, hcard, hf]
      refine congrArg (· + _) ?_
      simp only [card, Option.map_some, Option.some.injEq]

theorem dealSum_perm {ds ds' : List Deal} (hp : ds'.Perm ds) (pick : Deal → Nat × Int)
    (f : Deal → Int) (t : Nat) (x : Word) : dealSum cs pick f t x ds' = dealSum cs pick f t x ds :=
  (hp.map _).sum_eq

variable {γ : Type*} {group : Nat → γ} {area : Word → γ} {fee : Int → Int} {m m' : Main}

/-- The deals of the log, one for each trade. -/
theorem Orderly.dealt (h : Orderly group area fee m) {y : Trade}
    (hy : y ∈ m.exchange.completedTrades) : ∃ o b, m.exchange.orderbook[y.incomingOrder]? = some o ∧
      m.exchange.orderbook[y.orderInBook]? = some b ∧ card o ∈ cards m.exchange.orderbook ∧
      card b ∈ cards m.exchange.orderbook := by
  obtain ⟨o, b, ho, hb, _⟩ := h.ok.sound.trades y hy
  exact ⟨o, b, ho, hb, mem_cards.mpr ⟨_, o, ho, rfl⟩, mem_cards.mpr ⟨_, b, hb, rfl⟩⟩

theorem sumOver_side (h : Orderly group area fee m) (side : OrderType) (t : Nat) (x : Word)
    (f' : Deal → Int) {f : Trade → Int}
    (hf : ∀ y a b, f y = f' ⟨a, b, y.transactionQuantity, y.transactionPrice⟩) :
    sumOver (ofSide side) m.exchange.orderbook t x f m.exchange.completedTrades =
      dealSum (cards m.exchange.orderbook) (sideKey (cards m.exchange.orderbook) side) f' t x
        (engineOf m.exchange).deals := by
  refine sumOver_deals h.oneCard t x fun y hy => ?_
  obtain ⟨o, b, ho, hb, hco, hcb⟩ := h.dealt hy
  refine ⟨o, b, _, ho, hb, dealOf_eq ho hb, ?_, ?_, hf y _ _⟩
  · unfold ofSide
    split
    · exact hco
    · exact hcb
  · have hcard : cardOf (cards m.exchange.orderbook) (o.trader, o.orderId) =
        some (o.orderType, o.item) := cardOf_of_mem h.oneCard hco
    unfold sideKey ofSide
    simp only [hcard, Option.map_some, Option.some.injEq]
    split <;> rfl

/-- The fee is paid by the incoming order. -/
theorem sumOver_payer (h : Orderly group area fee m) (t : Nat) (x : Word) :
    sumOver payer m.exchange.orderbook t x (·.tax) m.exchange.completedTrades =
      dealSum (cards m.exchange.orderbook) Deal.incoming (fun d => fee (d.quantity * d.unitPrice)) t
        x (engineOf m.exchange).deals := by
  refine sumOver_deals h.oneCard t x fun y hy => ?_
  obtain ⟨o, b, ho, hb, hco, hcb⟩ := h.dealt hy
  have hpayer : payer o b = o := by
    have hlater := h.later y hy
    have hio := h.ok.sound.index _ o ho
    have hib := h.ok.sound.index _ b hb
    exact if_pos (by omega)
  refine ⟨o, b, _, ho, hb, dealOf_eq ho hb, ?_, ?_, h.squared.taxes y hy⟩
  · rw [hpayer]
    exact hco
  · rw [hpayer]
    rfl

theorem fees_deals (h : Orderly group area fee m) : m.exchange.transactionFee =
    ((engineOf m.exchange).deals.map fun d => fee (d.quantity * d.unitPrice)).sum := by
  rw [h.ledger.fees]
  show _ = ((m.exchange.completedTrades.filterMap _).map _).sum
  have hall : ∀ y ∈ m.exchange.completedTrades, ∃ d, dealOf m.exchange.orderbook y = some d ∧
      fee (d.quantity * d.unitPrice) = y.tax := by
    intro y hy
    obtain ⟨o, b, ho, hb, -⟩ := h.dealt hy
    exact ⟨_, dealOf_eq ho hb, (h.squared.taxes y hy).symm⟩
  generalize m.exchange.completedTrades = ts at hall
  induction ts with
  | nil => rfl
  | cons y ts ih =>
      obtain ⟨hy, hts⟩ := List.forall_mem_cons.mp hall
      obtain ⟨d, hd, hfee⟩ := hy
      rw [List.filterMap_cons_some hd, List.map_cons, List.map_cons, List.sum_cons, List.sum_cons,
        ih hts, hfee]

/-- **Positions and fees do not see the order of book and log.** -/
theorem positions_alike (h : Orderly group area fee m) (h' : Orderly group area fee m')
    (hA : Alike m m') :
    (∀ t x, ledgerQuantity m'.exchange t x = ledgerQuantity m.exchange t x) ∧
    (∀ t x, ledgerBank m'.exchange t x = ledgerBank m.exchange t x) ∧
    m'.exchange.transactionFee = m.exchange.transactionFee := by
  have hcards := cardOf_perm h.oneCard hA.cards
  have hsum : ∀ (pick : Deal → Nat × Int) (f : Deal → Int) (t : Nat) (x : Word),
      dealSum (cards m'.exchange.orderbook) pick f t x (engineOf m'.exchange).deals =
        dealSum (cards m.exchange.orderbook) pick f t x (engineOf m.exchange).deals := by
    intro pick f t x
    rw [dealSum_perm hA.deals]
    unfold dealSum
    rw [hcards]
  have hside : sideKey (cards m'.exchange.orderbook) = sideKey (cards m.exchange.orderbook) := by
    unfold sideKey
    rw [hcards]
  refine ⟨fun t x => ?_, fun t x => ?_, ?_⟩
  · unfold ledgerQuantity
    rw [sumOver_side h' .BUY t x Deal.quantity fun _ _ _ => rfl,
      sumOver_side h' .SELL t x Deal.quantity fun _ _ _ => rfl,
      sumOver_side h .BUY t x Deal.quantity fun _ _ _ => rfl,
      sumOver_side h .SELL t x Deal.quantity fun _ _ _ => rfl, hside, hsum, hsum]
  · unfold ledgerBank
    rw [sumOver_side h' .SELL t x (fun d => d.quantity * d.unitPrice) fun _ _ _ => rfl,
      sumOver_side h' .BUY t x (fun d => d.quantity * d.unitPrice) fun _ _ _ => rfl,
      sumOver_side h .SELL t x (fun d => d.quantity * d.unitPrice) fun _ _ _ => rfl,
      sumOver_side h .BUY t x (fun d => d.quantity * d.unitPrice) fun _ _ _ => rfl,
      sumOver_payer h', sumOver_payer h, hside, hsum, hsum, hsum]
  · rw [fees_deals h', fees_deals h]
    exact (hA.deals.map _).sum_eq

theorem entries_alike (h : Orderly group area fee m) (h' : Orderly group area fee m')
    (hA : Alike m m') (t i : Nat) :
    pieces m'.exchange.traders t i = pieces m.exchange.traders t i ∧
      dollars m'.exchange.traders t i = dollars m.exchange.traders t i := by
  obtain ⟨hquantity, hbank, -⟩ := positions_alike h h' hA
  cases ht : m.exchange.traders[t]? with
  | none =>
      have hlen := congrArg List.length hA.doors
      rw [doors, doors, List.length_map, List.length_map] at hlen
      have ht' : m'.exchange.traders[t]? = none := by
        rw [List.getElem?_eq_none_iff] at ht ⊢
        omega
      unfold pieces dollars
      rw [ht, ht']
      exact ⟨rfl, rfl⟩
  | some tr =>
      obtain ⟨tr', ht', -⟩ := doors_getElem? hA.doors.symm ht
      cases hx : m.exchange.products[i]? with
      | some x =>
          have hx' : m'.exchange.products[i]? = some x := by
            rw [hA.products]
            exact hx
          have hlt := (List.getElem?_eq_some_iff.mp ht).1
          have hlt' := (List.getElem?_eq_some_iff.mp ht').1
          rw [h.ledger.quantity t i x hlt hx, h'.ledger.quantity t i x hlt' hx',
            h.ledger.bank t i x hlt hx, h'.ledger.bank t i x hlt' hx', hquantity, hbank]
          exact ⟨rfl, rfl⟩
      | none =>
          obtain ⟨hw, hv⟩ := h.ok.sound.width t tr ht
          obtain ⟨hw', hv'⟩ := h'.ok.sound.width t tr' ht'
          rw [List.getElem?_eq_none_iff] at hx
          rw [hA.products] at hw' hv'
          unfold pieces dollars
          rw [ht, ht', Option.bind_some, Option.bind_some, Option.bind_some, Option.bind_some,
            List.getElem?_eq_none (by omega), List.getElem?_eq_none (by omega),
            List.getElem?_eq_none (by omega), List.getElem?_eq_none (by omega)]
          exact ⟨rfl, rfl⟩

end Deals

/-! ## 7. Runs -/

/-- **How the commands of different groups interleave makes no difference.** In a run that numbers
    its orders, whose AMENDs fit and in which each group keeps to its products, neighbours of
    different groups may change places, as often as one likes: the lines and deals at the end are
    the same, up to the order of the deals, and so are the positions of every trader and the
    fees. -/
theorem interleavings_agree {γ : Type*} (group : Nat → γ) (area : Word → γ) (fee : Int → Int)
    (products : List Word) (hnd : products.Nodup) (pids : List Nat) (argv : List Word)
    (hargv : argv.length = commandArgc) (is is' : List Input)
    (hnext : AllSteps (mainNext fee) EntersNext (mainInit products pids argv) is)
    (hfits : AllSteps (mainNext fee) AmendFits (mainInit products pids argv) is)
    (hkeep : AllSteps (mainNext fee) (KeepsTo group area) (mainInit products pids argv) is)
    (hs : Shuffled (Apart group) is is') :
    let e := (mainRun fee products pids argv is).exchange
    let e' := (mainRun fee products pids argv is').exchange
    (engineOf e').waiting = (engineOf e).waiting ∧
      (engineOf e').deals.Perm (engineOf e).deals ∧
      (∀ t i : Nat, pieces e'.traders t i = pieces e.traders t i ∧
        dollars e'.traders t i = dollars e.traders t i) ∧
      e'.transactionFee = e.transactionFee := by
  intro e e'
  have hadmits : AllSteps (mainNext fee) (Admits group area) (mainInit products pids argv) is :=
    allSteps_mono (fun _ _ h => ⟨h.1, h.2.1, h.2.2⟩) is
      (allSteps_and is hnext (allSteps_and is hfits hkeep))
  have hinit : Orderly group area fee (mainInit products pids argv) :=
    orderly_init fee hnd pids hargv
  obtain ⟨-, h, h', hA⟩ := shuffled_related
    (R := fun m m' => Orderly group area fee m ∧ Orderly group area fee m' ∧ Alike m m')
    (fun m m' i hR ha => by
      obtain ⟨ha', hA'⟩ := alike_next hR.1 hR.2.1 hR.2.2 ha
      exact ⟨ha', orderly_next hR.1 ha, orderly_next hR.2.1 ha', hA'⟩)
    (fun m i j hR hij ha hb => by
      cases i with
      | poll pid exited => exact hij.elim
      | command pid text =>
          cases j with
          | poll pid' exited => exact hij.elim
          | command pid' text' =>
              obtain ⟨hb', ha', hA'⟩ := alike_swap hR.1 ha hb hij
              exact ⟨hb', ha', orderly_next (orderly_next hR.1 ha) hb,
                orderly_next (orderly_next hR.1 hb') ha', hA'⟩)
    (fun _ _ _ hR hR' => ⟨hR.1, hR'.2.1, hR.2.2.trans hR'.2.2⟩) hs
    ⟨hinit, hinit, Alike.refl _⟩ hadmits
  exact ⟨hA.waiting, hA.deals, entries_alike h h' hA, (positions_alike h h' hA).2.2⟩

/-- Two traders of GPUs and two of Routers: the Routers first, or both by turns. -/
theorem interleavings_agree_twoMarkets :
    let is := [Input.command 10 "SELL 0 GPU 4 100;".toList, .command 11 "SELL 0 Router 3 50;".toList,
      .command 12 "BUY 0 GPU 1 120;".toList, .command 13 "BUY 0 Router 2 60;".toList]
    let is' := [Input.command 11 "SELL 0 Router 3 50;".toList,
      .command 10 "SELL 0 GPU 4 100;".toList, .command 13 "BUY 0 Router 2 60;".toList,
      .command 12 "BUY 0 GPU 1 120;".toList]
    let e := (mainRun (· / 100) ["GPU".toList, "Router".toList] [10, 11, 12, 13]
      (List.replicate 6 []) is).exchange
    let e' := (mainRun (· / 100) ["GPU".toList, "Router".toList] [10, 11, 12, 13]
      (List.replicate 6 []) is').exchange
    e'.orderbook ≠ e.orderbook ∧ e.completedTrades.length = 2 ∧
      (engineOf e').waiting = (engineOf e).waiting ∧
      (engineOf e').deals.Perm (engineOf e).deals ∧
      (∀ t i : Nat, pieces e'.traders t i = pieces e.traders t i ∧
        dollars e'.traders t i = dollars e.traders t i) ∧
      e'.transactionFee = e.transactionFee := by
  intro is is' e e'
  refine ⟨by decide +kernel, by decide +kernel, ?_⟩
  refine interleavings_agree (fun pid => decide (pid % 2 = 0)) (fun x => decide (x = "GPU".toList))
    (· / 100) ["GPU".toList, "Router".toList] (by decide) [10, 11, 12, 13] (List.replicate 6 []) rfl
    is is' (by decide +kernel) (by decide +kernel) (by decide +kernel) ?_
  refine .head (.here _ ?_) (.single (.later _ (.later _ (.here _ ?_))))
  · exact fun h => by cases h
  · exact fun h => by cases h

end SysProg.Pe
