/-
  File:      SysProg/Pe/Work.lean
  Subject:   HOW MUCH WORK A RUN CAN MAKE: trades, and system calls the
             traders see.

  One command can sweep the whole book, and no bound per command is better
  than the length of the book. Over a run it evens out: every trade closes an
  order, and a command opens one at most. Open orders are the potential.

  * `step_potential` -- trades and open orders together go up by one at most;
  * `step_calls` -- the calls of a step: one per trader, and four per trade;
  * `work_bounded` -- the bounds of a run.
-/
import SysProg.Pe.Log

namespace SysProg.Pe

open Lib

def Input.isCommand : Input → Bool
  | .command _ _ => true
  | .poll _ _ => false

/-- The system calls of a run. -/
def runEvents (fee : Int → Int) : Main → List Input → List Event
  | _, [] => []
  | m, i :: is => (mainStep fee m i).2 ++ runEvents fee (mainNext fee m i) is

/-! ## 1. Trades -/

section Trades

variable {fee : Int → Int} {m : Main}

theorem openCount_close (e : Exchange) (k : Nat) : openCount (e.onOrder k closeOrder) ≤ openCount e :=
  countP_modify_le (fun _ h => absurd h Bool.false_ne_true) _ _

theorem openCount_add (e : Exchange) (o : Order) : openCount (marketAddOrder e o) ≤ openCount e + 1 := by
  show (e.orderbook ++ [_]).countP _ ≤ _
  rw [List.countP_append]
  exact Nat.add_le_add_left List.countP_le_length _

/-- **Trades and open orders together go up by one at most**, and only with a command. -/
theorem step_potential (fee : Int → Int) (hS : Sound m.exchange) (i : Input) :
    (mainNext fee m i).exchange.completedTrades.length + openCount (mainNext fee m i).exchange ≤
      m.exchange.completedTrades.length + openCount m.exchange + if i.isCommand then 1 else 0 := by
  have hcommand : entryOf m i ≠ .none → (if i.isCommand then 1 else 0) = 1 := by
    intro h
    cases i with
    | command pid text => rfl
    | poll pid exited => exact absurd rfl h
  refine (mainNext_inv (I := fun e => e.completedTrades.length + openCount e ≤
    m.exchange.completedTrades.length + openCount m.exchange + if i.isCommand then 1 else 0)
    (fun e side r b o best _ hp hM => ?_) hS ?_ ?_ ?_ ?_ ?_).2
  · have hclosed := openCount_applyMatch fee hM
    have hlog : (applyMatch fee e side r b o best).completedTrades.length =
        e.completedTrades.length + 1 := List.length_append
    omega
  · intro t o h _
    rw [hcommand (by rw [h]; exact nofun)]
    exact Nat.add_le_add_left (openCount_add m.exchange o) _
  · intro t k o old h _
    rw [hcommand (by rw [h]; exact nofun)]
    exact Nat.add_le_add_left ((openCount_close _ k).trans (openCount_add m.exchange o)) _
  · exact fun _ => Nat.le_add_right _ _
  · intro r o _ _ _
    exact (Nat.add_le_add_left (openCount_close m.exchange r) _).trans (Nat.le_add_right _ _)
  · exact fun _ _ => Nat.le_add_right _ _

end Trades

/-! ## 2. System calls -/

section Calls

variable {fee : Int → Int} {m : Main}

theorem fillEvents_length (e : Exchange) (y : Trade) : (fillEvents e y).length ≤ 4 := by
  unfold fillEvents
  split
  · split
    · split
      · exact Nat.le_succ 3
      · exact Nat.le_refl 4
    · exact Nat.zero_le _
  · exact Nat.zero_le _

theorem tradeLoop_calls (fee : Int → Int) (type : OrderType) (order : Option Nat) :
    ∀ (n : Nat) (p : Option Trade × Exchange), (tradeLoop fee type order n p).2.1.length ≤
      4 * (tradeLoop fee type order n p).1.length
  | _, (none, _) => by
      unfold tradeLoop
      exact Nat.zero_le _
  | 0, (some _, _) => Nat.zero_le _
  | n + 1, (some y, e) => by
      have hfill := fillEvents_length e y
      have hrest := tradeLoop_calls fee type order n (placeFor fee type e order)
      rw [tradeLoop]
      simp only [List.length_append, List.length_cons]
      omega

/-- The sender is left out. -/
theorem broadcast_length {ts : List Trader} {sender : Nat} (h : sender < ts.length)
    (text : List Char) : (broadcast ts sender text).length + 2 ≤ 2 * ts.length := by
  -- over the rest of the table, from position `n` on
  have hall : ∀ (ts : List Trader) (n : Nat),
      ((ts.zipIdx n).flatMap fun p => if p.2 ≠ sender ∧ p.1.disconnected = false then
          notify p.2 p.1.traderPid text else []).length +
        (if n ≤ sender ∧ sender < n + ts.length then 2 else 0) ≤ 2 * ts.length := by
    intro ts
    induction ts with
    | nil =>
        intro n
        rw [if_neg (by simp only [List.length_nil]; omega)]
        exact Nat.le_refl _
    | cons t ts ih =>
        intro n
        have hrest := ih (n + 1)
        rw [List.zipIdx_cons, List.flatMap_cons, List.length_append, List.length_cons]
        by_cases hn : n = sender
        · rw [if_neg (fun h => h.1 hn), if_pos ⟨by omega, by omega⟩, List.length_nil]
          rw [if_neg (by omega)] at hrest
          omega
        · have htwo : (if n ≠ sender ∧ t.disconnected = false then notify n t.traderPid text
              else []).length ≤ 2 := by
            split
            · exact Nat.le_refl 2
            · exact Nat.zero_le _
          have hsame : (n + 1 ≤ sender ∧ sender < n + 1 + ts.length) ↔
              n ≤ sender ∧ sender < n + (ts.length + 1) := by omega
          rw [if_congr hsame rfl rfl] at hrest
          dsimp only at htwo hrest ⊢
          omega
  have := hall ts 0
  rw [if_pos ⟨Nat.zero_le _, by omega⟩] at this
  exact this

/-- A verdict, a broadcast, and the matching loop. -/
theorem branch_calls (fee : Int → Int) {e : Exchange} (hB : BookOk e) {sender : Nat}
    (h : sender < e.traders.length) (pid : Nat) (type : OrderType) (first order : Option Nat)
    (answer text : List Char) :
    let loop := tradeLoop fee type order e.orderbook.length (placeFor fee type e first)
    (notify sender pid answer ++ broadcast e.traders sender text ++ loop.2.1).length +
        4 * e.completedTrades.length ≤
      2 * e.traders.length + 4 * loop.2.2.completedTrades.length := by
  intro loop
  obtain ⟨hlog, -⟩ := loop_trades fee type first order hB
  have hlen : loop.2.2.completedTrades.length = e.completedTrades.length + loop.1.length := by
    rw [← List.length_append]
    exact congrArg List.length hlog
  have hcalls : loop.2.1.length ≤ 4 * loop.1.length := tradeLoop_calls fee type order _ _
  have hbroadcast := broadcast_length h text
  rw [List.length_append, List.length_append, hlen]
  show 2 + _ + _ + _ ≤ _
  omega

/-- The calls of a message. -/
theorem message_calls (fee : Int → Int) (hS : Sound m.exchange) {sender : Nat} (pid : Nat)
    {tr : Trader} (text : List Char) (htr : m.exchange.traders[sender]? = some tr) :
    (handleMessage fee m sender pid tr text).2.length + 4 * m.exchange.completedTrades.length ≤
      2 * m.exchange.traders.length +
        4 * (handleMessage fee m sender pid tr text).1.exchange.completedTrades.length := by
  have hlt := (List.getElem?_eq_some_iff.mp htr).1
  rcases message_cases fee m sender pid tr text with ⟨argv, order, -, -, -, h⟩ |
    ⟨argv, o, hmsg, hnew, -, h⟩ | ⟨argv, k, o, hmsg, hs, -, h⟩ |
    ⟨argv, orderId, r, o, -, hr, ho, -, h⟩
  · rw [h]
    show 2 + 4 * m.exchange.completedTrades.length ≤ _ + 4 * m.exchange.completedTrades.length
    omega
  · have hF : Fresh m.exchange sender o := by
      obtain ⟨s, -, -, -, -, -, hpos, -, -, -, rfl⟩ := newOrder_eq_some.mp hnew
      exact ⟨rfl, hlt, (readMessage_order hmsg).2.1, hpos, rfl⟩
    have hlen : (enterOrder m.exchange sender o).traders.length = m.exchange.traders.length :=
      List.length_modify _ _ _
    rw [h, orderReceived_some hnew]
    have hb := branch_calls fee (sound_enter hS hF).toBookOk (by rw [hlen]; exact hlt) pid
    rw [hlen] at hb
    exact hb _ _ _ _ _
  · obtain ⟨_, old, hold⟩ := amendSearch_spec hS.toBookOk htr hs
    have hlen : (replaceOrder m.exchange sender k o).traders.length = m.exchange.traders.length :=
      List.length_modify _ _ _
    rw [h, amendRequest_some hS htr hold hs]
    have hb := branch_calls fee (sound_replace hS hold).toBookOk (by rw [hlen]; exact hlt) pid
    rw [hlen] at hb
    exact hb _ _ _ _ _
  · have hbroadcast := broadcast_length hlt (marketText (typeText o.orderType) o.item 0 0)
    rw [h, List.length_append]
    show 2 + _ + 4 * _ ≤ _ + 4 * m.exchange.completedTrades.length
    omega

/-- **The calls of a step**: two for each trader, and four for each trade. -/
theorem step_calls (fee : Int → Int) (hS : Sound m.exchange) (i : Input) :
    (mainStep fee m i).2.length + 4 * m.exchange.completedTrades.length ≤
      4 * (mainNext fee m i).exchange.completedTrades.length +
        if i.isCommand then 2 * m.exchange.traders.length else 0 := by
  unfold mainNext
  cases i with
  | poll pid exited =>
      unfold mainStep
      cases m.exchangeDisconnect <;> cases exited <;> exact Nat.le_of_eq (Nat.add_comm _ _)
  | command pid text =>
      rcases command_cases fee m pid text with ⟨h, _⟩ | ⟨sender, tr, _, _, htr, h, _⟩
      · rw [h]
        show 0 + 4 * m.exchange.completedTrades.length ≤
          4 * m.exchange.completedTrades.length + _
        omega
      · rw [h]
        have := message_calls fee hS pid text htr
        show _ ≤ _ + 2 * _
        omega

end Calls

/-! ## 3. Runs -/

section Runs

variable {fee : Int → Int}

theorem runEvents_length (fee : Int → Int) : ∀ (is : List Input) (m : Main),
    (runEvents fee m is).length = totalCost (mainNext fee) (fun m i => (mainStep fee m i).2.length) m is
  | [], _ => rfl
  | i :: is, m => by
      rw [runEvents, List.length_append, runEvents_length fee is]
      rfl

/-- Each command has the same budget. -/
theorem totalCost_commands (c : Nat) : ∀ (is : List Input) (m : Main),
    totalCost (mainNext fee) (fun _ i => if i.isCommand then c else 0) m is =
      c * is.countP Input.isCommand
  | [], _ => rfl
  | i :: is, m => by
      rw [totalCost, totalCost_commands c is, List.countP_cons, Nat.mul_add]
      split <;> omega

/-- **What a run can cost**: it makes no more trades than it has commands, and what is left open
    comes on top; and no more system calls than two for each trader and command and four for each
    command. -/
theorem work_bounded (fee : Int → Int) (products : List Word) (pids : List Nat) (argv : List Word)
    (is : List Input) :
    let m := mainRun fee products pids argv is
    m.exchange.completedTrades.length + openCount m.exchange ≤ is.countP Input.isCommand ∧
      (runEvents fee (mainInit products pids argv) is).length ≤
        (2 * pids.length + 4) * is.countP Input.isCommand := by
  intro m
  have hinit : MainOk (mainInit products pids argv) ∧
      (mainInit products pids argv).exchange.traders.length = pids.length :=
    ⟨mainOk_init products pids argv, List.length_map _⟩
  have hkeep : ∀ (m : Main) (i : Input), MainOk m ∧ m.exchange.traders.length = pids.length →
      MainOk (mainNext fee m i) ∧ (mainNext fee m i).exchange.traders.length = pids.length := by
    intro m i h
    have hlen := congrArg List.length (next_pids fee h.1.sound i)
    rw [List.length_map, List.length_map] at hlen
    exact ⟨mainOk_next fee h.1 i, hlen.trans h.2⟩
  constructor
  · have h := @totalCost_le _ _ (mainNext fee) MainOk (fun _ _ => 0)
      (fun m => m.exchange.completedTrades.length + openCount m.exchange)
      (fun i => if i.isCommand then 1 else 0) (fun m i h => mainOk_next fee h i)
      (fun m i h => by
        rw [Nat.zero_add]
        exact step_potential fee h.sound i) is _ hinit.1
    rw [totalCost_commands, Nat.one_mul] at h
    exact (Nat.le_add_left _ _).trans (h.trans (Nat.le_of_eq (Nat.zero_add _)))
  · have h := @totalCost_le _ _ (mainNext fee)
      (fun m => MainOk m ∧ m.exchange.traders.length = pids.length)
      (fun m i => (mainStep fee m i).2.length) (fun m => 4 * openCount m.exchange)
      (fun i => if i.isCommand then 2 * pids.length + 4 else 0) hkeep
      (fun m i h => by
        have hcalls := step_calls fee h.1.sound i
        have hpotential := step_potential fee h.1.sound i
        rw [h.2] at hcalls
        split at hcalls <;> split at hpotential <;> split <;> omega) is _ hinit
    rw [totalCost_commands, ← runEvents_length] at h
    exact (Nat.le_add_right _ _).trans (h.trans (Nat.le_of_eq (Nat.zero_add _)))

end Runs

end SysProg.Pe
