/-
  File:      SysProg/Pe/Numbers.lean
  Subject:   THE NUMBERS OF A COMMAND, as they are written and as they are
             stored.

  `isNumeric` asks for digits only, and the range checks see what `atoi` makes
  of them: the low 32 bits of a `long` that saturates. A number beyond the
  values of an `int` therefore passes the checks as another number, or, as an
  id, as a negative one.

  * `asWritten_iff` -- `newOrder` stores the numbers written exactly if all
    three of them are `int`s;
  * `entered_asWritten_iff` -- for every command that is accepted, in every
    reachable state.
-/
import SysProg.Pe.Grammar
import SysProg.Pe.Sound

namespace SysProg.Pe

open Lib

/-! ## 1. The numbers of a command -/

/-- The id, the quantity and the price in the words of a BUY, SELL or AMEND command. -/
inductive Numbers : List Word → Word → Word → Word → Prop where
  | order (side id item quantity price : Word) :
      Numbers [side, id, item, quantity, price] id quantity price
  | amend (id quantity price : Word) :
      Numbers ["AMEND".toList, id, quantity, price] id quantity price

/-- The order has the numbers written, and they are in range; `count` is the `order_count` of its
    trader. -/
structure AsWritten (o : Order) (count : Nat) (id quantity price : Word) : Prop where
  orderId : o.orderId = digitsVal id
  quantity : o.quantity = digitsVal quantity
  unitPrice : o.unitPrice = digitsVal price
  idRange : 0 ≤ o.orderId ∧ o.orderId ≤ count
  quantityRange : 1 ≤ o.quantity ∧ o.quantity ≤ 999999
  priceRange : 1 ≤ o.unitPrice ∧ o.unitPrice ≤ 999999

/-- **`newOrder` stores the numbers written exactly if they are `int`s.** -/
theorem asWritten_iff {a id x quantity price : Word} {rest : List Word} {t : Nat} {tr : Trader}
    {ty : Option OrderType} {o : Order}
    (h : newOrder (a :: id :: x :: quantity :: price :: rest) t tr ty = some o) :
    AsWritten o tr.orderCount id quantity price ↔
      digitsVal id < 2 ^ 31 ∧ digitsVal quantity < 2 ^ 31 ∧ digitsVal price < 2 ^ 31 := by
  obtain ⟨s, -, hid, hq, hp, hcount, hq1, hq2, hp1, hp2, rfl⟩ := newOrder_eq_some.mp h
  have hid' := atoi_eq_iff (List.all_eq_true.mp hid)
  have hq' := atoi_eq_iff (List.all_eq_true.mp hq)
  have hp' := atoi_eq_iff (List.all_eq_true.mp hp)
  refine ⟨fun hw => ⟨hid'.mp hw.orderId, hq'.mp hw.quantity, hp'.mp hw.unitPrice⟩, ?_⟩
  intro h
  obtain ⟨hsid, hsq, hsp⟩ := h
  refine ⟨hid'.mpr hsid, hq'.mpr hsq, hp'.mpr hsp, ⟨?_, hcount⟩, ⟨hq1, hq2⟩, hp1, hp2⟩
  exact le_of_le_of_eq (Int.natCast_nonneg _) (hid'.mpr hsid).symm

/-! ## 2. The commands that are accepted -/

/-- The order an entry hands to `marketAddOrder`, and its trader. -/
def Entry.Stores : Entry → Nat → Order → Prop
  | .none, _, _ => False
  | .new trader order, t, o => trader = t ∧ order = o
  | .amended trader _ order, t, o => trader = t ∧ order = o

/-- The words of a message, and the numbers `newOrder` is given. -/
theorem messageEntry_numbers {m : Main} {sender t : Nat} {tr : Trader} {text : List Char}
    {o : Order} (hargv : 5 ≤ m.marketArgv.length)
    (h : (messageEntry m sender tr text).Stores t o) :
    t = sender ∧ ∃ st ws id quantity price, Reads m.exchange.products (messageOf tr text) st ws ∧
      Numbers ws id quantity price ∧
      ∃ a x rest ty, newOrder (a :: id :: x :: quantity :: price :: rest) t tr ty = some o := by
  cases he : messageEntry m sender tr text with
  | none =>
      rw [he] at h
      exact absurd h id
  | new trader order =>
      rw [he] at h
      obtain ⟨rfl, rfl⟩ := h
      obtain ⟨rfl, argv, hmsg, hnew⟩ := messageEntry_eq_new.mp he
      obtain ⟨ws, hreads, hargv'⟩ := readMessage_reads hmsg (by decide) hargv
      cases hreads with
      | order side id item quantity price hside hitem hs =>
          subst hargv'
          exact ⟨rfl, _, _, id, quantity, price, .order side id item quantity price hside hitem hs,
            .order side id item quantity price, side, item, _, _, hnew⟩
  | amended trader k order =>
      rw [he] at h
      obtain ⟨rfl, rfl⟩ := h
      obtain ⟨rfl, argv, hmsg, hfound⟩ := messageEntry_eq_amended.mp he
      obtain ⟨ws, hreads, hargv'⟩ := readMessage_reads hmsg (by decide) hargv
      obtain ⟨old, -, -, -, -, hnew, -⟩ := amendSearch_built hfound
      cases hreads with
      | amend id quantity price hs =>
          subst hargv'
          exact ⟨rfl, _, _, id, quantity, price, .amend id quantity price hs,
            .amend id quantity price, typeText old.orderType, old.item, [], _, hnew⟩

/-- **An accepted command is stored as it was written exactly if its numbers are `int`s**: in
    every reachable state, for every command that enters an order, of whatever trader. -/
theorem entered_asWritten_iff (fee : Int → Int) (products : List Word) (pids : List Nat)
    (argv : List Word) (hargv : argv.length = commandArgc) (is : List Input) (pid : Nat)
    (text : List Char) (t : Nat) (o : Order)
    (h : (entryOf (mainRun fee products pids argv is) (.command pid text)).Stores t o) :
    let m := mainRun fee products pids argv is
    ∃ tr st ws id quantity price, m.exchange.traders[t]? = some tr ∧
      Reads m.exchange.products (messageOf tr text) st ws ∧ Numbers ws id quantity price ∧
      (AsWritten o tr.orderCount id quantity price ↔
        digitsVal id < 2 ^ 31 ∧ digitsVal quantity < 2 ^ 31 ∧ digitsVal price < 2 ^ 31) := by
  intro m
  have hlen : m.marketArgv.length = commandArgc := argv_run fee products pids hargv is
  rcases command_cases fee m pid text with ⟨-, he⟩ | ⟨sender, tr, -, -, htr, -, he⟩
  · rw [he] at h
    exact absurd h id
  · rw [he] at h
    obtain ⟨rfl, st, ws, id, quantity, price, hreads, hnum, a, x, rest, ty, hnew⟩ :=
      messageEntry_numbers (by rw [hlen]; decide) h
    exact ⟨tr, st, ws, id, quantity, price, htr, hreads, hnum, asWritten_iff hnew⟩

/-- A first order. -/
theorem entered_asWritten_iff_first :
    let m := mainRun (· / 100) ["GPU".toList] [10, 11] (List.replicate 6 []) []
    ∃ tr st ws id quantity price, m.exchange.traders[0]? = some tr ∧
      Reads m.exchange.products (messageOf tr "BUY 0 GPU 30 500;".toList) st ws ∧
      Numbers ws id quantity price ∧
      (AsWritten ⟨.BUY, "GPU".toList, 30, 500, 0, 0, -1, false⟩ tr.orderCount id quantity price ↔
        digitsVal id < 2 ^ 31 ∧ digitsVal quantity < 2 ^ 31 ∧ digitsVal price < 2 ^ 31) :=
  entered_asWritten_iff (· / 100) ["GPU".toList] [10, 11] (List.replicate 6 []) rfl [] 10
    "BUY 0 GPU 30 500;".toList 0 _ (by
      rw [show entryOf _ _ = .new 0 ⟨.BUY, "GPU".toList, 30, 500, 0, 0, -1, false⟩ by
        decide +kernel]
      exact ⟨rfl, rfl⟩)

/-- The quantity 4294967297 is accepted and stored as 1; the command has 25 bytes. -/
theorem quantity_wraps :
    let m := mainRun (· / 100) ["GPU".toList] [10, 11] (List.replicate 6 []) []
    let text := "BUY 0 GPU 4294967297 500;".toList
    text.length < 40 ∧
    entryOf m (.command 10 text) = .new 0 ⟨.BUY, "GPU".toList, 1, 500, 0, 0, -1, false⟩ ∧
    digitsVal "4294967297".toList = 4294967297 ∧
    ¬ AsWritten ⟨.BUY, "GPU".toList, 1, 500, 0, 0, -1, false⟩ 0 "0".toList "4294967297".toList
      "500".toList := by
  refine ⟨by decide, by decide +kernel, by decide +kernel, fun h => ?_⟩
  have hq : digitsVal "4294967297".toList = 4294967297 := by decide +kernel
  have hw := h.quantity
  rw [hq] at hw
  cases hw

end SysProg.Pe
