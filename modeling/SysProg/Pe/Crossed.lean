/-
  File:      SysProg/Pe/Crossed.lean
  Subject:   WHEN THE BOOK IS LEFT CROSSED.

  A new order is swept until NULL, so it leaves nothing to trade with. The
  AMEND branch places the amended order once and then sweeps what `order`
  points to: some earlier order, which in an uncrossed book trades with
  nothing. An amended order that is larger than the first order it crosses
  and crosses a second one is therefore left crossed.

  * `AmendFits` -- the AMENDs that cannot do that;
  * `uncrossed_new` -- a new order restores the invariant;
  * `uncrossed_amended` -- an amended one exactly if it fits;
  * `uncrossed_run` -- the runs that are never left crossed are those whose
    AMENDs all fit.
-/
import SysProg.Pe.Numbering
import SysProg.Pe.PriceTime

namespace SysProg.Pe

open Lib

/-! ## 1. The property and the condition -/

/-- No product has an open BUY and an open SELL order that could trade. -/
def Uncrossed (book : List Order) : Prop :=
  ∀ (j k : Nat) (a b : Order), book[j]? = some a → book[k]? = some b → a.orderType = .BUY →
    b.orderType = .SELL → a.completed = false → b.completed = false → a.item = b.item →
    ¬ a.unitPrice ≥ b.unitPrice

/-- An amended order crosses at most one order, or it is no larger than the first, in price-time
    order, of those it crosses. -/
def AmendFits (m : Main) (i : Input) : Prop :=
  match entryOf m i with
  | .amended _ _ o =>
      match queue o.orderType.other m.exchange.orderbook o.item o.unitPrice with
      | b :: _ :: _ => o.quantity ≤ b.quantity
      | _ => True
  | _ => True

instance (m : Main) (i : Input) : Decidable (AmendFits m i) := by
  unfold AmendFits
  exact match entryOf m i with
    | .none => instDecidableTrue
    | .new _ _ => instDecidableTrue
    | .amended _ _ o => by
        dsimp only
        exact match queue o.orderType.other m.exchange.orderbook o.item o.unitPrice with
          | [] => instDecidableTrue
          | [_] => instDecidableTrue
          | b :: _ :: _ => inferInstanceAs (Decidable (o.quantity ≤ b.quantity))

/-- The same property, seen from one order of a pair. -/
theorem uncrossed_iff {book : List Order} : Uncrossed book ↔
    ∀ (j k : Nat) (a b : Order), book[j]? = some a → book[k]? = some b → a.completed = false →
      ¬ Crossing a.orderType.other a.item a.unitPrice b := by
  constructor
  · intro h j k a b ha hb hoa hc
    obtain ⟨⟨hs, hi, hob⟩, hp⟩ := hc
    cases ht : a.orderType with
    | BUY =>
        simp only [ht, OrderType.other, rank] at hs hp
        exact h j k a b ha hb ht hs hoa hob hi.symm hp
    | SELL =>
        simp only [ht, OrderType.other, rank] at hs hp
        exact h k j b a hb ha hs ht hob hoa hi (by omega)
  · intro h j k a b ha hb hta htb hoa hob hi hp
    refine h j k a b ha hb hoa ⟨⟨by rw [htb, hta]; rfl, hi.symm, hob⟩, ?_⟩
    rw [hta]
    exact hp

theorem crossing_congr {side side' : OrderType} {x x' : Word} {p p' : Int} {b b' : Order}
    (hs : side = side') (hx : x = x') (hp : p = p') (he : Evolves b b') (ho : b.completed = false) :
    Crossing side x p b' → Crossing side' x' p' b := by
  subst hs hx hp
  intro h
  obtain ⟨⟨h1, h2, _⟩, h4⟩ := h
  refine ⟨⟨he.orderType ▸ h1, he.item ▸ h2, ho⟩, ?_⟩
  rw [← he.unitPrice]
  exact h4

/-- Two orders that were in an uncrossed book do not cross later. -/
theorem not_crossing_later {ob : List Order} (hU : Uncrossed ob) {j k : Nat} {a b a' b' : Order}
    (ha : ob[j]? = some a) (hb : ob[k]? = some b) (hea : Evolves a a') (heb : Evolves b b')
    (hoa : a'.completed = false) : ¬ Crossing a'.orderType.other a'.item a'.unitPrice b' := by
  intro hc
  refine uncrossed_iff.mp hU j k a b ha hb (hea.open_of_open hoa) ?_
  exact crossing_congr (by rw [hea.orderType]) hea.item hea.unitPrice heb
    (heb.open_of_open hc.1.2.2) hc

theorem uncrossed_grows {ob ob' : List Order} (hU : Uncrossed ob) (hg : Grows ob ob')
    (hlen : ob'.length = ob.length) : Uncrossed ob' := by
  refine uncrossed_iff.mpr fun j k a b ha hb hoa => ?_
  obtain ⟨a₀, ha₀, hea⟩ := hg.back hlen ha
  obtain ⟨b₀, hb₀, heb⟩ := hg.back hlen hb
  exact not_crossing_later hU ha₀ hb₀ hea heb hoa

/-! ## 2. One order added to an uncrossed book -/

/-- The book has grown by one order, at its end. -/
structure GrownBy (ob ob' : List Order) (n : Order) : Prop where
  book : Grows ob ob'
  length : ob'.length = ob.length + 1
  last : ob'[ob.length]? = some n

/-- Where the last order crosses nothing, the book is uncrossed; and the other way round. -/
theorem uncrossed_grownBy {ob ob' : List Order} {n : Order} (hU : Uncrossed ob)
    (h : GrownBy ob ob' n) : Uncrossed ob' ↔ (n.completed = false →
      ∀ (k : Nat) (b : Order), ob'[k]? = some b → ¬ Crossing n.orderType.other n.item n.unitPrice b) := by
  rw [uncrossed_iff]
  constructor
  · intro hU' hn k b hb
    exact hU' _ k n b h.last hb hn
  · intro hn j k a b ha hb hoa hc
    -- an order of the old book, or the last one
    have hold : ∀ (i : Nat) (x : Order), ob'[i]? = some x →
        (∃ x₀, ob[i]? = some x₀ ∧ Evolves x₀ x) ∨ x = n := by
      intro i x hx
      by_cases hi : i < ob.length
      · obtain ⟨x', hx', he⟩ := h.book i _ (List.getElem?_eq_getElem hi)
        rw [hx] at hx'
        cases hx'
        exact Or.inl ⟨_, List.getElem?_eq_getElem hi, he⟩
      · have hlt := (List.getElem?_eq_some_iff.mp hx).1
        have e : i = ob.length := by rw [h.length] at hlt; omega
        rw [e, h.last] at hx
        exact Or.inr (Option.some.inj hx).symm
    rcases hold j a ha with ⟨a₀, ha₀, hea⟩ | rfl
    · rcases hold k b hb with ⟨b₀, hb₀, heb⟩ | rfl
      · exact not_crossing_later hU ha₀ hb₀ hea heb hoa hc
      · -- the last order crosses `a` as well
        refine hn hc.1.2.2 j a ha ⟨⟨?_, hc.1.2.1.symm, hoa⟩, ?_⟩
        · rw [hc.1.1, OrderType.other_other]
        · have hp := hc.2
          rw [hc.1.1]
          cases ht : a.orderType <;> simp only [ht, OrderType.other, rank] at hp ⊢ <;> omega
    · exact hn hoa k b hb hc

/-- The call that ends a sweep leaves its state. -/
theorem sweep_end {fee : Int → Int} {side : OrderType} {order : Option Nat} {e e' : Exchange}
    {ts : List Trade} (h : Sweep fee side order e ts e') (hB : BookOk e) :
    placeFor fee side e' order = (none, e') := by
  induction h with
  | @stop e e' h =>
      rcases placeFor_cases fee hB side order with ⟨h', _⟩ | ⟨r, b, o, best, _, _, h'⟩
      · have he : e = e' := congrArg Prod.snd (h'.symm.trans h)
        rw [← he]
        exact h'
      · rw [h'] at h
        cases h
  | more h _ ih => exact ih (placeFor_some hB h).1

/-- An order that has no trade to make crosses nothing. -/
theorem not_crossing_of_done {fee : Int → Int} {side : OrderType} {r : Nat} {e e' : Exchange}
    {o : Order} (hB : BookOk e) (h : placeFor fee side e (some r) = (none, e'))
    (hr : e.orderbook[r]? = some o) (hs : o.orderType = side) (ho : o.completed = false) (k : Nat)
    (b : Order) (hb : e.orderbook[k]? = some b) :
    ¬ Crossing o.orderType.other o.item o.unitPrice b := by
  intro hc
  rcases placeFor_cases fee hB side (some r) with ⟨_, hno⟩ | ⟨_, _, _, _, _, _, h'⟩
  · rw [hs] at hc
    exact getBest_eq_none.mp (hno r o rfl hr hs ho) k b hb hc.1 hc.2
  · rw [h'] at h
    cases h

/-! ## 3. The two branches -/

section Branches

variable {fee : Int → Int} {m : Main} {i : Input}

/-- **A new order leaves an uncrossed book uncrossed.** -/
theorem uncrossed_new {t : Nat} {o : Order} (hS : Sound m.exchange)
    (hU : Uncrossed m.exchange.orderbook) (h : entryOf m i = .new t o) :
    Uncrossed (mainNext fee m i).exchange.orderbook := by
  have hB := (sound_enter hS (entryOf_new h).toFresh).toBookOk
  obtain ⟨ts, hs, _⟩ := next_new fee hS h
  obtain ⟨hB', _, hlen, hdrawn⟩ := sweep_drawn hs hB
  have hnew : (enterOrder m.exchange t o).orderbook[m.exchange.orderbook.length]? =
      some (placed m.exchange o) := by
    rw [enterOrder_book, List.getElem?_concat_length]
    rfl
  obtain ⟨n, hn, hd⟩ := hdrawn _ _ hnew
  have hgrown : GrownBy m.exchange.orderbook (mainNext fee m i).exchange.orderbook n := by
    refine ⟨next_grows fee hS i, ?_, hn⟩
    rw [hlen, enterOrder_book, List.length_append]
    rfl
  refine (uncrossed_grownBy hU hgrown).mpr fun hopen k b hb => ?_
  exact not_crossing_of_done hB' (sweep_end hs hB) hn hd.orderType hopen k b hb

/-- What `order` points to has no trade to make: it was in the uncrossed book. -/
theorem sweep_stale {e e' e₁ : Exchange} {side : OrderType} {order : Option Nat} {ts : List Trade}
    (hU : Uncrossed e.orderbook) (hB : BookOk e₁) (hg : Grows e.orderbook e₁.orderbook)
    (horder : ∀ r, order = some r → r < e.orderbook.length)
    (hother : ∀ (k : Nat) (b : Order), e₁.orderbook[k]? = some b → b.orderType = side.other →
      k < e.orderbook.length)
    (h : Sweep fee side order e₁ ts e') : e' = e₁ := by
  have hnone : placeFor fee side e₁ order = (none, e₁) := by
    rcases placeFor_cases fee hB side order with ⟨h', _⟩ | ⟨r, b, o, best, hr, hM, _⟩
    · exact h'
    · have hlt := horder r hr
      obtain ⟨o', ho', heo⟩ := hg r _ (List.getElem?_eq_getElem hlt)
      have he : o' = o := Option.some.inj (ho'.symm.trans hM.incoming)
      subst he
      obtain ⟨j, c, _, hc, hcl, _⟩ := getBest_spec hM.found
      have hjlt := hother j c hc.place hc.rests.1
      obtain ⟨c', hc', hec⟩ := hg j _ (List.getElem?_eq_getElem hjlt)
      have he' : c' = c := Option.some.inj (hc'.symm.trans hc.place)
      subst he'
      refine absurd ?_ (not_crossing_later hU (List.getElem?_eq_getElem hlt)
        (List.getElem?_eq_getElem hjlt) heo hec hM.isOpen)
      rw [hM.ownSide]
      exact ⟨hc.rests, hcl⟩
  exact (repeats_unique h (.stop hnone)).2

theorem keysDistinct_of_numbered {e : Exchange} (hS : Sound e) (hN : Numbered e)
    (side : OrderType) : KeysDistinct side e.orderbook :=
  fun _ _ _ _ ha hb _ _ hoa hob hk => hN.open_unique hS ha hb hoa hob hk.1 hk.2

theorem amendFits_eq {t k : Nat} {o : Order} (h : entryOf m i = .amended t k o) :
    AmendFits m i ↔ ∀ b c bs, queue o.orderType.other m.exchange.orderbook o.item o.unitPrice =
      b :: c :: bs → o.quantity ≤ b.quantity := by
  unfold AmendFits
  rw [h]
  simp only
  split
  · rename_i b c bs hq
    rw [hq]
    constructor
    · intro hle b' c' bs' he
      cases he
      exact hle
    · intro hall
      exact hall b c bs rfl
  · rename_i hq
    exact ⟨fun _ b c bs he => absurd he (hq b c bs), fun _ => trivial⟩

/-- The order a match finds is the head of what the book has to trade with. -/
theorem queued_match {e : Exchange} {side : OrderType} {r b : Nat} {o best : Order}
    {l : List Order} (hS : Sound e) (hN : Numbered e) (hM : Match e side r b o best)
    (hQ : Queued side.other e.orderbook o.item o.unitPrice l) :
    ∃ bs, l = best :: bs ∧ b = best.orderIndex.toNat := by
  obtain ⟨q, qs, rfl⟩ : ∃ q qs, l = q :: qs := by
    obtain ⟨j, c, _, hc, hcl, _⟩ := getBest_spec hM.found
    exact List.exists_cons_of_ne_nil
      (List.ne_nil_of_mem ((hQ.mem c).mpr ⟨List.mem_of_getElem? hc.place, hc.rests, hcl⟩))
  have hb : b = q.orderIndex.toNat := Option.some.inj (hM.found.symm.trans
    (getBest_queue hS.index (keysDistinct_of_numbered hS hN _) hQ))
  subst hb
  have hbest : best = q := Option.some.inj (hM.inBook.symm.trans
    (getElem?_index hS.index ((hQ.mem q).mp List.mem_cons_self).1))
  exact ⟨qs, by rw [hbest], by rw [hbest]⟩

/-- After one match, the incoming order crosses nothing exactly if it is used up or was alone with
    the order it matched. -/
theorem match_leaves_nothing {e : Exchange} {side : OrderType} {r : Nat} {o best : Order}
    {bs : List Order} (hS : Sound e) (hM : Match e side r best.orderIndex.toNat o best)
    (hQ : Queued side.other e.orderbook o.item o.unitPrice (best :: bs)) :
    ((o.fill (matchAmount o best)).completed = false → ∀ (k : Nat) (b : Order),
        (applyMatch fee e side r best.orderIndex.toNat o best).orderbook[k]? = some b →
          ¬ Crossing side.other o.item o.unitPrice b) ↔
      (bs ≠ [] → o.quantity ≤ best.quantity) := by
  by_cases hle : o.quantity ≤ best.quantity
  · -- the order is used up
    have hclosed : (o.fill (matchAmount o best)).completed = true :=
      fill_completed.mpr (Or.inr (by unfold matchAmount; omega))
    rw [hclosed]
    exact ⟨fun _ _ => hle, fun _ hfalse => by cases hfalse⟩
  · -- it stays open, and crosses what is left of the queue
    have hopen : (o.fill (matchAmount o best)).completed = false := by
      refine Bool.eq_false_iff.mpr fun hc => ?_
      rcases fill_completed.mp hc with hc' | hc'
      · rw [hM.isOpen] at hc'
        cases hc'
      · unfold matchAmount at hc'
        omega
    have hQ₂ := (queued_tail hS.index hQ).agree (agreeOn_match fee hM (by omega)).symm
    constructor
    · intro hnone hbs
      obtain ⟨c, cs, rfl⟩ := List.exists_cons_of_ne_nil hbs
      obtain ⟨hc, hcross⟩ := (hQ₂.mem c).mp List.mem_cons_self
      obtain ⟨j, hj⟩ := List.mem_iff_getElem?.mp hc
      exact absurd hcross (hnone hopen j c hj)
    · intro hfits _ j c hj hcross
      have hc := (hQ₂.mem c).mpr ⟨List.mem_of_getElem? hj, hcross⟩
      exact hle (hfits (List.ne_nil_of_mem hc))

/-- The book after an AMEND's first match: the old one, and the amended order at its end. -/
theorem grownBy_match (fee : Int → Int) {t k b : Nat} {o old best : Order}
    (hold : AmendEntry m.exchange t k o old)
    (hM : Match (replaceOrder m.exchange t k o) o.orderType m.exchange.orderbook.length b
      (placed m.exchange o) best) :
    GrownBy m.exchange.orderbook (applyMatch fee (replaceOrder m.exchange t k o) o.orderType
        m.exchange.orderbook.length b (placed m.exchange o) best).orderbook
      ((placed m.exchange o).fill (matchAmount (placed m.exchange o) best)) := by
  refine ⟨(grows_replace hold).trans (grows_match fee hM), ?_, ?_⟩
  · rw [applyMatch_book_length, replaceOrder_book_length]
  · rw [applyMatch_book hM, if_pos rfl]

/-- An AMEND of an uncrossed book makes one match at most: what `order` points to was in the book
    and has no trade to make. -/
theorem next_amended_match {t k b : Nat} {o old best : Order} (hok : MainOk m)
    (hU : Uncrossed m.exchange.orderbook) (h : entryOf m i = .amended t k o)
    (hold : AmendEntry m.exchange t k o old)
    (hM : Match (replaceOrder m.exchange t k o) o.orderType m.exchange.orderbook.length b
      (placed m.exchange o) best) {x : Trade}
    (hp : placeFor fee o.orderType (replaceOrder m.exchange t k o)
      (some m.exchange.orderbook.length) = (some x, applyMatch fee (replaceOrder m.exchange t k o)
        o.orderType m.exchange.orderbook.length b (placed m.exchange o) best)) :
    (mainNext fee m i).exchange = applyMatch fee (replaceOrder m.exchange t k o) o.orderType
      m.exchange.orderbook.length b (placed m.exchange o) best := by
  have hB := bookOk_applyMatch fee (sound_replace hok.sound hold).toBookOk hM
  have hgrown := grownBy_match fee hold hM
  rcases (next_amended fee hok.sound h).2 with ⟨hn, _⟩ | ⟨x', e₁, ts, hp', hs⟩
  · rw [hp] at hn
    cases hn
  · rw [hp] at hp'
    cases hp'
    refine sweep_stale hU hB hgrown.book hok.order (fun j y hy hty => ?_) hs
    -- the order at the end is of the amended order's own side
    have hlt := (List.getElem?_eq_some_iff.mp hy).1
    rw [hgrown.length] at hlt
    by_contra hge
    have hj : j = m.exchange.orderbook.length := by omega
    subst hj
    rw [hgrown.last] at hy
    cases hy
    rw [fill_orderType] at hty
    exact o.orderType.other_ne hty.symm

/-- **An amended order leaves an uncrossed book uncrossed exactly if it fits.** -/
theorem uncrossed_amended {t k : Nat} {o : Order} (hok : MainOk m) (hN : Numbered m.exchange)
    (hU : Uncrossed m.exchange.orderbook) (h : entryOf m i = .amended t k o) :
    Uncrossed (mainNext fee m i).exchange.orderbook ↔ AmendFits m i := by
  obtain ⟨old, hold⟩ := entryOf_amended hok.sound.toBookOk h
  have hS₁ := sound_replace hok.sound hold
  have hN₁ : Numbered (replaceOrder m.exchange t k o) :=
    ⟨idsInOrder_replace hN.ids hold, newest_replace hN hold⟩
  have hQ := (queued_queue hok.sound.index o.orderType.other o.item o.unitPrice).agree
    (agreeOn_replace hold)
  have hnew := replaceOrder_new hold
  rw [amendFits_eq h]
  rcases placeFor_cases fee hS₁.toBookOk o.orderType (some m.exchange.orderbook.length) with
    ⟨hp, _⟩ | ⟨r, b, o', best, hr, hM, hp⟩
  · -- nothing to trade with
    have hnot := not_crossing_of_done hS₁.toBookOk hp hnew rfl hold.isOpen
    have hgrown : GrownBy m.exchange.orderbook (replaceOrder m.exchange t k o).orderbook
        (placed m.exchange o) := ⟨grows_replace hold, replaceOrder_book_length, hnew⟩
    have hex : (mainNext fee m i).exchange = replaceOrder m.exchange t k o := by
      rcases (next_amended fee hok.sound h).2 with ⟨_, he⟩ | ⟨x, e₁, ts, hp', _⟩
      · exact he
      · rw [hp] at hp'
        cases hp'
    rw [hex]
    refine ⟨fun _ b c bs hq => ?_, fun _ => (uncrossed_grownBy hU hgrown).mpr fun _ => hnot⟩
    obtain ⟨hb, hcross⟩ := (hQ.mem b).mp (by rw [hq]; exact List.mem_cons_self)
    obtain ⟨j, hj⟩ := List.mem_iff_getElem?.mp hb
    exact absurd hcross (hnot j b hj)
  · -- one match, with the head of the queue
    cases hr
    have ho' : o' = placed m.exchange o := Option.some.inj (hM.incoming.symm.trans hnew)
    subst ho'
    obtain ⟨bs, hq, hb⟩ := queued_match hS₁ hN₁ hM hQ
    subst hb
    rw [hq] at hQ ⊢
    rw [next_amended_match hok hU h hold hM hp, uncrossed_grownBy hU (grownBy_match fee hold hM),
      fill_orderType, fill_item, fill_unitPrice]
    refine (match_leaves_nothing hS₁ hM hQ).trans ⟨fun hfits b c cs hb => ?_, fun hfits hbs => ?_⟩
    · cases hb
      exact hfits (List.cons_ne_nil c cs)
    · obtain ⟨c, cs, rfl⟩ := List.exists_cons_of_ne_nil hbs
      exact hfits best c cs rfl

end Branches

/-! ## 4. Runs -/

/-- **One step leaves the book uncrossed exactly if its AMEND, if it is one, fits.** -/
theorem uncrossed_next (fee : Int → Int) {m : Main} {i : Input} (hok : MainOk m)
    (hN : Numbered m.exchange) (hU : Uncrossed m.exchange.orderbook) :
    Uncrossed (mainNext fee m i).exchange.orderbook ↔ AmendFits m i := by
  cases h : entryOf m i with
  | amended t k o => exact uncrossed_amended hok hN hU h
  | new t o =>
      refine ⟨fun _ => ?_, fun _ => uncrossed_new hok.sound hU h⟩
      unfold AmendFits
      rw [h]
      trivial
  | none =>
      refine ⟨fun _ => ?_, fun _ => ?_⟩
      · unfold AmendFits
        rw [h]
        trivial
      · rcases (next_none fee h).1 with he | ⟨r, o, hr, ho, he⟩ | ⟨pid, _, he⟩ <;> rw [he]
        · exact hU
        · exact uncrossed_grows hU (grows_close hr ho) (List.length_modify _ _ _)
        · exact hU

/-- **Exactly the runs whose AMENDs fit are never left crossed**, among the runs that number
    their orders. -/
theorem uncrossed_run (fee : Int → Int) (products : List Word) (pids : List Nat) (argv : List Word)
    (is : List Input) (h : AllSteps (mainNext fee) EntersNext (mainInit products pids argv) is) :
    Always (mainNext fee) (fun m => Uncrossed m.exchange.orderbook) (mainInit products pids argv) is ↔
      AllSteps (mainNext fee) AmendFits (mainInit products pids argv) is := by
  refine always_iff_allSteps (I := fun m => MainOk m ∧ Numbered m.exchange) (N := EntersNext)
    (fun m i hm hn => ⟨mainOk_next fee hm.1 i, numbered_next fee hm.1.sound hm.2 hn⟩)
    (fun m i hm _ hU => uncrossed_next fee hm.1 hm.2 hU) is
    ⟨mainOk_init products pids argv, numbered_init products pids argv⟩ ?_ h
  intro j k a b ha
  cases ha

/-- One seller waits, and a buyer amends up to more than that seller has. -/
theorem uncrossed_run_fits :
    let is := [Input.command 10 "SELL 0 GPU 10 100;".toList, .command 11 "BUY 0 GPU 5 50;".toList,
      .command 11 "AMEND 0 20 200;".toList]
    AllSteps (mainNext (· / 100)) EntersNext
      (mainInit ["GPU".toList] [10, 11] (List.replicate 6 [])) is ∧
    Always (mainNext (· / 100)) (fun m => Uncrossed m.exchange.orderbook)
      (mainInit ["GPU".toList] [10, 11] (List.replicate 6 [])) is := by
  intro is
  have h : AllSteps (mainNext (· / 100)) EntersNext
      (mainInit ["GPU".toList] [10, 11] (List.replicate 6 [])) is := by decide +kernel
  exact ⟨h, (uncrossed_run _ _ _ _ is h).mpr (by decide +kernel)⟩

/-- Two sellers at 100 and 110 wait; a buyer amends up to 20 at 200 and trades with the first
    only, since the loop then places the order just replaced. -/
theorem uncrossed_broken :
    let is := [Input.command 10 "SELL 0 GPU 10 100;".toList, .command 10 "SELL 1 GPU 10 110;".toList,
      .command 11 "BUY 0 GPU 5 50;".toList, .command 11 "AMEND 0 20 200;".toList]
    AllSteps (mainNext (· / 100)) EntersNext
      (mainInit ["GPU".toList] [10, 11] (List.replicate 6 [])) is ∧
    ¬ Uncrossed (mainRun (· / 100) ["GPU".toList] [10, 11] (List.replicate 6 [])
      is).exchange.orderbook := by
  intro is
  refine ⟨by decide +kernel, fun hU => ?_⟩
  have hbook : (mainRun (· / 100) ["GPU".toList] [10, 11] (List.replicate 6 [])
      is).exchange.orderbook = [⟨.SELL, "GPU".toList, 0, 100, 0, 0, 0, true⟩,
        ⟨.SELL, "GPU".toList, 10, 110, 0, 1, 1, false⟩, ⟨.BUY, "GPU".toList, 5, 50, 1, 0, 2, true⟩,
        ⟨.BUY, "GPU".toList, 10, 200, 1, 0, 3, false⟩] := by decide +kernel
  rw [hbook] at hU
  exact hU 3 1 _ _ rfl rfl rfl rfl rfl rfl rfl (by decide)

end SysProg.Pe
