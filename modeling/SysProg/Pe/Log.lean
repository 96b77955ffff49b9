/-
  File:      SysProg/Pe/Log.lean
  Subject:   THE LOG of the exchange: what its event loop prints, and what an
             auditor finds in it.

  A line is the data of its `printf`; `LogLine.text` is the format, on exact
  numbers. What is printed are the amounts as their variables hold them
  (`stored`): pieces in an `int`, dollars in a `long long`. The lines that the
  system calls print when they fail are left out, and so is what goes to
  standard error.

  The auditor goes through the log once and adds up the fees of the Match
  lines. A position block has to balance with the fees so far, and so has the
  amount printed at the end.

  * `stepLog`, `printed` -- the lines of a step, and the output of a run;
  * `stepLog_command`, `stepLog_poll` -- the lines of a step by what the step
    of the event loop does: its answer, its trades, and the state it leaves;
  * `stored_run` -- no amount of the first 2147 trades is cut off;
  * `MatchShown`, `PositionsShown`, `FeesShown` -- what an outsider finds in
    the output;
  * `log_audits` -- the output of every such run passes the audit, its Match
    lines are the trades of the market, and positions and fees are shown.
-/
import SysProg.Pe.Arrival
import SysProg.Pe.Print
import SysProg.Pe.Range
import SysProg.Pe.Verdict

namespace SysProg.Pe

open Lib

/-! ## 1. Lines -/

/-- A line of the log, or a block of lines. Orders are given by trader and id. -/
inductive LogLine where
  | parsing (trader : Nat) (command : List Char) : LogLine
  | refused (text : List Char) : LogLine
  | matched (orderInBook newOrder : Nat × Int) (value fee : Int) : LogLine
  | orderBook (text : List Char) : LogLine
  | positions (rows : List (List (Word × Int × Int))) : LogLine
  | disconnected (trader : Nat) : LogLine
  | completed (fees : Int) : LogLine
  deriving DecidableEq, Repr

/-- `"%s %d ($%lld)"` -/
def entryText (entry : Word × Int × Int) : List Char :=
  entry.1 ++ ' ' :: itoa entry.2.1 ++ " ($".toList ++ itoa entry.2.2 ++ [')']

/-- The line of a trader. -/
def rowText (trader : Nat) (row : List (Word × Int × Int)) : List Char :=
  logPrefix ++ "\tTrader ".toList ++ itoa trader ++ ": ".toList ++
    ", ".toList.intercalate (row.map entryText) ++ ['\n']

def LogLine.text : LogLine → List Char
  | .parsing trader command =>
      logPrefix ++ " [T".toList ++ itoa trader ++ "] Parsing command: <".toList ++ command ++
        ">\n".toList
  | .refused text => text
  | .matched orderInBook newOrder value fee =>
      logPrefix ++ " Match: Order ".toList ++ itoa orderInBook.2 ++ " [T".toList ++
        itoa orderInBook.1 ++ "], New Order ".toList ++ itoa newOrder.2 ++ " [T".toList ++
        itoa newOrder.1 ++ "], value: $".toList ++ itoa value ++ ", fee: $".toList ++ itoa fee ++
        ".\n".toList
  | .orderBook text => logPrefix ++ "\t--ORDERBOOK--\n".toList ++ text
  | .positions rows =>
      logPrefix ++ "\t--POSITIONS--\n".toList ++ rows.zipIdx.flatMap fun (row, i) => rowText i row
  | .disconnected trader =>
      logPrefix ++ " Trader ".toList ++ itoa trader ++ " disconnected\n".toList
  | .completed fees =>
      logPrefix ++ " Trading completed\n".toList ++ logPrefix ++
        " Exchange fees collected: $".toList ++ itoa fees ++ ['\n']

/-- The line with its amounts as their variables hold them. -/
def LogLine.stored : LogLine → LogLine
  | .matched orderInBook newOrder value fee =>
      .matched orderInBook newOrder (toInt64 value) (toInt64 fee)
  | .positions rows =>
      .positions (rows.map fun row => row.map fun entry =>
        (entry.1, toInt32 entry.2.1, toInt64 entry.2.2))
  | .completed fees => .completed (toInt64 fees)
  | line => line

/-! ## 2. What a step prints -/

/-- The positions of a trader, a product after the other. -/
def positionRow (products : List Word) (t : Trader) : List (Word × Int × Int) :=
  products.zip (t.inventoryQuantity.zip t.bank)

def printOrderBook (e : Exchange) : List LogLine :=
  [.orderBook (e.products.flatMap (printOrderByProduct e.orderbook)),
    .positions (e.traders.map (positionRow e.products))]

/-- What `read_message` prints about a message it refuses at once. -/
def refusalLog (message : List Char) : List LogLine :=
  if message = [] then [.refused "Null input\n".toList]
  else if message.head? = some ' ' ∨ message.getLast? = some ' ' then
    [.refused "Invalid - leading/end\n".toList]
  else if doubleSpace message then [.refused "Invalid - consecutive whitespaces\n".toList]
  else []

/-- The Match line of a trade. -/
def matchLine (book : List Order) (y : Trade) : Option LogLine :=
  match keyAt book y.orderInBook, keyAt book y.incomingOrder with
  | some inBook, some incoming =>
      some (.matched inBook incoming (y.transactionQuantity * y.transactionPrice) y.tax)
  | _, _ => none

/-- The loop of the BUY/SELL branch and of the AMEND branch, from the exchange `e` the order was
    entered into. -/
def loopLog (fee : Int → Int) (type : OrderType) (first order : Option Nat) (e : Exchange) :
    List LogLine :=
  let loop := tradeLoop fee type order e.orderbook.length (placeFor fee type e first)
  loop.1.filterMap (matchLine e.orderbook) ++ printOrderBook loop.2.2

def orderReceivedLog (fee : Int → Int) (m : Main) (argv : List Word) (sender : Nat) (t : Trader) :
    List LogLine :=
  match newOrder argv sender t (orderTypeOf (argAt argv 0)) with
  | none => []
  | some order =>
      let r := m.exchange.orderbook.length
      loopLog fee order.orderType (some r) (some r) (enterOrder m.exchange sender order)

def amendRequestLog (fee : Int → Int) (m : Main) (argv : List Word) (sender : Nat) (t : Trader) :
    List LogLine :=
  match amend argv m.exchange sender t with
  | none => []
  | some e =>
      match (e.traders[sender]?).bind (getOrder e.orderbook · (atoi (argAt argv 1))) with
      | none => []
      | some r =>
        match e.orderbook[r]? with
        | none => []
        | some amended => loopLog fee amended.orderType (some r) m.order e

def cancelRequestLog (m : Main) (argv : List Word) (t : Trader) : List LogLine :=
  if !isNumeric (argAt argv 1) then []
  else
    match getOrder m.exchange.orderbook t (atoi (argAt argv 1)) with
    | none => []
    | some r =>
      match m.exchange.orderbook[r]? with
      | none => []
      | some o =>
          if o.completed then [] else printOrderBook (m.exchange.onOrder r closeOrder)

def messageLog (fee : Int → Int) (m : Main) (sender : Nat) (t : Trader) (text : List Char) :
    List LogLine :=
  match readMessage (messageOf t text) m.marketArgv m.exchange.products with
  | (.ORDER_RECEIVED, argv) => orderReceivedLog fee m argv sender t
  | (.AMEND_REQUEST, argv) => amendRequestLog fee m argv sender t
  | (.CANCEL_REQUEST, argv) => cancelRequestLog m argv t
  | (.INVALID_MESSAGE, _) => []

/-- The traders with the pid returned. -/
def pollLog (m : Main) (pid : Int) (exited : Bool) : List LogLine :=
  (if exited then
    m.exchange.traders.zipIdx.filterMap fun (t, i) =>
      if (t.traderPid : Int) = pid then some (.disconnected i) else none
  else []) ++
  (if (pollTraders m pid exited).exchangeDisconnect then [.completed m.exchange.transactionFee]
  else [])

def stepLog (fee : Int → Int) (m : Main) : Input → List LogLine
  | .command pid text =>
      if m.exchangeDisconnect then []
      else
        match findTrader m.exchange.traders pid with
        | none => []
        | some sender =>
          match m.exchange.traders[sender]? with
          | none => []
          | some t =>
              .parsing sender (messageOf t text) :: refusalLog (messageOf t text) ++
                messageLog fee m sender t text
  | .poll pid exited => if m.exchangeDisconnect then [] else pollLog m pid exited

/-- The log of a run. -/
def runLog (fee : Int → Int) : Main → List Input → List LogLine
  | _, [] => []
  | m, i :: is => stepLog fee m i ++ runLog fee (mainNext fee m i) is

/-- The output of a run. -/
def printed (fee : Int → Int) (m : Main) (is : List Input) : List Char :=
  (runLog fee m is).flatMap fun line => line.stored.text

/-! ## 3. The auditor -/

/-- All dollars in the block and the fees so far come to nothing, and so do all pieces. -/
def Balanced (fees : Int) (rows : List (List (Word × Int × Int))) : Prop :=
  (rows.map fun row => (row.map (·.2.2)).sum).sum + fees = 0 ∧
    (rows.map fun row => (row.map (·.2.1)).sum).sum = 0

/-- From the fees so far: every fee is the fee of its value, every block balances, and the amount
    at the end is the sum of the fees. -/
def Audit (fee : Int → Int) : Int → List LogLine → Prop
  | _, [] => True
  | fees, .matched _ _ value f :: l => f = fee value ∧ Audit fee (fees + f) l
  | fees, .positions rows :: l => Balanced fees rows ∧ Audit fee fees l
  | fees, .completed total :: l => total = fees ∧ Audit fee fees l
  | fees, .parsing _ _ :: l => Audit fee fees l
  | fees, .refused _ :: l => Audit fee fees l
  | fees, .orderBook _ :: l => Audit fee fees l
  | fees, .disconnected _ :: l => Audit fee fees l

def LogLine.isMatch : LogLine → Bool
  | .matched _ _ _ _ => true
  | _ => false

/-- A line the auditor passes by. -/
def LogLine.Quiet : LogLine → Prop
  | .parsing _ _ | .refused _ | .disconnected _ => True
  | _ => False

section Auditing

variable {fee : Int → Int} {fees : Int} {quiet l : List LogLine} {book : List Order}
  {ts : List Trade}

theorem audit_quiet (hq : ∀ x ∈ quiet, x.Quiet) :
    Audit fee fees (quiet ++ l) ↔ Audit fee fees l := by
  induction quiet with
  | nil => rfl
  | cons x quiet ih =>
      obtain ⟨hx, hq'⟩ := List.forall_mem_cons.mp hq
      cases x with
      | parsing _ _ => exact ih hq'
      | refused _ => exact ih hq'
      | disconnected _ => exact ih hq'
      | matched _ _ _ _ => exact hx.elim
      | orderBook _ => exact hx.elim
      | positions _ => exact hx.elim
      | completed _ => exact hx.elim

theorem quiet_matches (hq : ∀ x ∈ quiet, x.Quiet) : quiet.filter LogLine.isMatch = [] := by
  refine List.filter_eq_nil_iff.mpr fun x hx => ?_
  have h := hq x hx
  cases x with
  | matched _ _ _ _ => exact h.elim
  | parsing _ _ => exact Bool.false_ne_true
  | refused _ => exact Bool.false_ne_true
  | disconnected _ => exact Bool.false_ne_true
  | orderBook _ => exact Bool.false_ne_true
  | positions _ => exact Bool.false_ne_true
  | completed _ => exact Bool.false_ne_true

/-- A trade between orders of the book has a line. -/
theorem matchLine_some {y : Trade} (h1 : y.incomingOrder < book.length)
    (h2 : y.orderInBook < book.length) : ∃ a b, matchLine book y =
      some (.matched a b (y.transactionQuantity * y.transactionPrice) y.tax) := by
  unfold matchLine keyAt
  rw [List.getElem?_eq_getElem h1, List.getElem?_eq_getElem h2]
  exact ⟨_, _, rfl⟩

/-- The Match lines of some trades. -/
theorem audit_matches
    (hts : ∀ y ∈ ts, y.incomingOrder < book.length ∧ y.orderInBook < book.length)
    (htax : ∀ y ∈ ts, y.tax = fee (y.transactionQuantity * y.transactionPrice)) :
    Audit fee fees (ts.filterMap (matchLine book) ++ l) ↔
      Audit fee (fees + (ts.map (·.tax)).sum) l := by
  induction ts generalizing fees with
  | nil =>
      show Audit fee fees l ↔ Audit fee (fees + 0) l
      rw [Int.add_zero]
  | cons y ts ih =>
      obtain ⟨hy, hts'⟩ := List.forall_mem_cons.mp hts
      obtain ⟨hty, htax'⟩ := List.forall_mem_cons.mp htax
      obtain ⟨a, b, hline⟩ := matchLine_some hy.1 hy.2
      rw [List.filterMap_cons_some hline, List.cons_append, Audit, and_iff_right hty, ih hts' htax',
        List.map_cons, List.sum_cons, Int.add_assoc]

theorem filter_matches : (ts.filterMap (matchLine book)).filter LogLine.isMatch =
    ts.filterMap (matchLine book) := by
  refine List.filter_eq_self.mpr fun x hx => ?_
  obtain ⟨y, _, hy⟩ := List.mem_filterMap.mp hx
  unfold matchLine at hy
  split at hy
  · cases hy
    rfl
  · cases hy

end Auditing

/-! ## 4. The lines of a step -/

theorem matchLine_congr {book book' : List Order} (h : ∀ k, keyAt book' k = keyAt book k)
    (y : Trade) : matchLine book' y = matchLine book y := by
  unfold matchLine
  rw [h, h]

theorem keyAt_same {ob ob' : List Order} (hg : Grows ob ob') (hlen : ob'.length = ob.length)
    (k : Nat) : keyAt ob' k = keyAt ob k := by
  by_cases hk : k < ob.length
  · exact keyAt_grows hg hk
  · unfold keyAt
    rw [List.getElem?_eq_none (by omega), List.getElem?_eq_none (by omega)]

/-- **What the matching loop leaves**: its trades are at the end of the log of the market, and the
    book has the same orders. -/
theorem loop_trades (fee : Int → Int) (type : OrderType) (first order : Option Nat) {e : Exchange}
    (hB : BookOk e) :
    let loop := tradeLoop fee type order e.orderbook.length (placeFor fee type e first)
    loop.2.2.completedTrades = e.completedTrades ++ loop.1 ∧
      Grows e.orderbook loop.2.2.orderbook ∧ loop.2.2.orderbook.length = e.orderbook.length := by
  intro loop
  rcases tradeLoop_after fee type order first hB with ⟨_, h⟩ | ⟨t, e₁, hp, hs, hhead⟩
  · have hloop : loop = ([], [], e) := h
    rw [hloop]
    exact ⟨(List.append_nil _).symm, Grows.refl _, rfl⟩
  · obtain ⟨us, hus⟩ : ∃ us, loop.1 = t :: us := List.head?_eq_some_iff.mp hhead
    have hs' : Sweep fee type order e₁ loop.1.tail loop.2.2 := hs
    rw [hus, List.tail_cons] at hs'
    rcases placeFor_cases fee hB type first with ⟨h', _⟩ | ⟨r, b, o, best, _, hM, h'⟩
    · rw [h'] at hp
      cases hp
    · rw [h'] at hp
      cases hp
      obtain ⟨_, hlog, hlen, hdrawn⟩ := sweep_drawn hs' (bookOk_applyMatch fee hB hM)
      refine ⟨?_, (grows_match fee hM).trans fun k x hx => ?_, hlen.trans applyMatch_book_length⟩
      · rw [hus, hlog]
        show (e.completedTrades ++ [_]) ++ us = _
        rw [List.append_assoc]
        rfl
      · obtain ⟨x', hx', hd⟩ := hdrawn k x hx
        exact ⟨x', hx', hd.toEvolves⟩

/-- The trades that are new in the log of the market. -/
def newTrades (e e' : Exchange) : List Trade := e'.completedTrades.drop e.completedTrades.length

/-- The lines behind an order that is accepted, amended or cancelled: the trades, and the block of
    the state that is left. -/
def acceptedLog (e e' : Exchange) : List LogLine :=
  (newTrades e e').filterMap (matchLine e'.orderbook) ++ printOrderBook e'

/-- **The lines of the matching loop**: the trades it adds to the log of the market, and the block
    of the state it leaves. -/
theorem loop_lines (fee : Int → Int) (type : OrderType) (first order : Option Nat)
    {e₀ e e' : Exchange} (hB : BookOk e) (h₀ : e.completedTrades = e₀.completedTrades)
    (he : (tradeLoop fee type order e.orderbook.length (placeFor fee type e first)).2.2 = e') :
    loopLog fee type first order e = acceptedLog e₀ e' ∧
      e₀.completedTrades <+: e'.completedTrades := by
  obtain ⟨hlog, hg, hlen⟩ := loop_trades fee type first order hB
  rw [he] at hlog hg hlen
  rw [h₀] at hlog
  refine ⟨?_, hlog ▸ List.prefix_append _ _⟩
  unfold loopLog acceptedLog newTrades
  dsimp only
  rw [he, hlog, List.drop_left, List.filterMap_congr fun y _ =>
    (matchLine_congr (keyAt_same hg hlen) y).symm]

section Steps

variable {fee : Int → Int} {m : Main}

/-- What is printed about a message: nothing if the answer is INVALID, and else the trades of the
    step and the state it leaves. -/
def AnswerLines (e e' : Exchange) (answers : List Verdict) (log : List LogLine) : Prop :=
  ∃ v, answers = [v] ∧ log = (if v = .INVALID then [] else acceptedLog e e') ∧
    e.completedTrades <+: e'.completedTrades

/-- **The lines of a message.** -/
theorem message_lines (fee : Int → Int) (hS : Sound m.exchange) {sender : Nat} {tr : Trader}
    (htr : m.exchange.traders[sender]? = some tr) (pid : Nat) (text : List Char) :
    AnswerLines m.exchange (handleMessage fee m sender pid tr text).1.exchange
      (verdicts sender (handleMessage fee m sender pid tr text).2)
      (messageLog fee m sender tr text) := by
  have hinvalid : ∀ {e' : Exchange}, e' = m.exchange →
      AnswerLines m.exchange e' (verdicts sender (notify sender pid invalidText)) [] := by
    intro e' he
    exact ⟨.INVALID, verdicts_notify rfl, rfl, he ▸ List.prefix_refl _⟩
  have hloop : ∀ {es : List Event} {v : Verdict} {type : OrderType} {first order : Option Nat}
      {e e' : Exchange}, verdicts sender es = [v] → v ≠ .INVALID →
      BookOk e → e.completedTrades = m.exchange.completedTrades →
      (tradeLoop fee type order e.orderbook.length (placeFor fee type e first)).2.2 = e' →
      AnswerLines m.exchange e' (verdicts sender es) (loopLog fee type first order e) := by
    intro es v type first order e e' hes hv hB h₀ he
    refine ⟨v, hes, ?_⟩
    rw [if_neg hv]
    exact loop_lines fee type first order hB h₀ he
  obtain ⟨⟨st, argv⟩, hmsg⟩ :
    ∃ p, readMessage (messageOf tr text) m.marketArgv m.exchange.products = p := ⟨_, rfl⟩
  unfold messageLog handleMessage
  rw [hmsg]
  cases st with
  | INVALID_MESSAGE => exact hinvalid rfl
  | ORDER_RECEIVED =>
      show AnswerLines m.exchange (orderReceived fee m argv sender pid tr).1.exchange
        (verdicts sender (orderReceived fee m argv sender pid tr).2)
        (orderReceivedLog fee m argv sender tr)
      unfold orderReceivedLog
      cases hnew : newOrder argv sender tr (orderTypeOf (argAt argv 0)) with
      | none =>
          unfold orderReceived
          rw [hnew]
          exact hinvalid rfl
      | some o =>
          rw [orderReceived_some hnew]
          obtain ⟨s, -, -, -, -, -, hpos, -, -, -, ho⟩ := newOrder_eq_some.mp hnew
          have hF : Fresh m.exchange sender o := by
            rw [ho]
            exact ⟨rfl, (List.getElem?_eq_some_iff.mp htr).1, (readMessage_order hmsg).2.1, hpos, rfl⟩
          exact hloop (verdicts_branch (verdictOf_accepted _) fun x hx => write_loop _ hx)
            (by decide) (sound_enter hS hF).toBookOk rfl rfl
  | AMEND_REQUEST =>
      show AnswerLines m.exchange (amendRequest fee m argv sender pid tr).1.exchange
        (verdicts sender (amendRequest fee m argv sender pid tr).2)
        (amendRequestLog fee m argv sender tr)
      unfold amendRequestLog amend
      cases hs : amendSearch argv m.exchange sender tr with
      | none =>
          unfold amendRequest amend
          rw [hs]
          exact hinvalid rfl
      | some found =>
          obtain ⟨k, o⟩ := found
          obtain ⟨hid, old, hold⟩ := amendSearch_spec hS.toBookOk htr hs
          obtain ⟨tr', htr', hget⟩ := getOrder_replaceOrder hS hold htr
          rw [hid] at hget
          rw [amendRequest_some hS htr hold hs]
          simp only [Option.map_some, htr', Option.bind_some, hget, replaceOrder_new hold]
          exact hloop (verdicts_branch (verdictOf_amended _) fun x hx => write_loop _ hx)
            (by decide) (sound_replace hS hold).toBookOk rfl rfl
  | CANCEL_REQUEST =>
      show AnswerLines m.exchange (cancelRequest m argv sender pid tr).1.exchange
        (verdicts sender (cancelRequest m argv sender pid tr).2) (cancelRequestLog m argv tr)
      unfold cancelRequestLog cancelRequest
      split
      · exact hinvalid rfl
      · dsimp only
        cases getOrder m.exchange.orderbook tr (atoi (argAt argv 1)) with
        | none => exact hinvalid rfl
        | some r =>
            dsimp only
            cases m.exchange.orderbook[r]? with
            | none => exact hinvalid rfl
            | some o =>
                dsimp only
                split
                · exact hinvalid rfl
                · -- the order is closed, and nothing is traded
                  refine ⟨.CANCELLED, ?_, ?_, List.prefix_refl _⟩
                  · rw [← List.append_nil (_ ++ _)]
                    exact verdicts_branch (verdictOf_cancelled _) fun x hx =>
                      absurd hx List.not_mem_nil
                  · have hnone : newTrades m.exchange (m.exchange.onOrder r closeOrder) = [] :=
                      List.drop_length
                    rw [if_neg (by decide), acceptedLog, hnone]
                    rfl

/-- **The lines of a command**, by what the step does: its answer, its trades, and the state it
    leaves. -/
theorem stepLog_command (fee : Int → Int) (hS : Sound m.exchange) {sender pid : Nat} {tr : Trader}
    (hd : m.exchangeDisconnect = false) (hf : findTrader m.exchange.traders pid = some sender)
    (htr : m.exchange.traders[sender]? = some tr) (text : List Char) :
    ∃ log, stepLog fee m (.command pid text) =
        .parsing sender (messageOf tr text) :: refusalLog (messageOf tr text) ++ log ∧
      AnswerLines m.exchange (mainNext fee m (.command pid text)).exchange
        (verdicts sender (mainStep fee m (.command pid text)).2) log := by
  have hstep : mainStep fee m (.command pid text) = handleMessage fee m sender pid tr text := by
    simp [mainStep, hd, hf, htr]
  rw [mainNext, hstep]
  refine ⟨_, ?_, message_lines fee hS htr pid text⟩
  simp [stepLog, hd, hf, htr]

/-- **The lines of a poll**: the traders with the pid returned, and the end. -/
theorem stepLog_poll (fee : Int → Int) (hd : m.exchangeDisconnect = false) (pid : Int)
    (exited : Bool) :
    stepLog fee m (.poll pid exited) =
      (if exited then
        m.exchange.traders.zipIdx.filterMap fun (t, i) =>
          if (t.traderPid : Int) = pid then some (.disconnected i) else none
      else []) ++
      (if (mainNext fee m (.poll pid exited)).exchangeDisconnect then
        [.completed (mainNext fee m (.poll pid exited)).exchange.transactionFee]
      else []) ∧
    (mainNext fee m (.poll pid exited)).exchange.completedTrades = m.exchange.completedTrades := by
  have hnext : mainNext fee m (.poll pid exited) = pollTraders m pid exited := by
    simp [mainNext, mainStep, hd]
  have hfee : (pollTraders m pid exited).exchange.transactionFee = m.exchange.transactionFee := by
    cases exited <;> rfl
  rw [hnext, hfee]
  refine ⟨?_, by cases exited <;> rfl⟩
  simp [stepLog, hd, pollLog]

/-- What a step prints: lines the auditor passes by, its trades, and at most one block or the end,
    of the state it leaves. -/
def StepLines (m m' : Main) (log : List LogLine) : Prop :=
  ∃ (quiet : List LogLine) (ts : List Trade) (tail : List LogLine),
    log = quiet ++ (ts.filterMap (matchLine m'.exchange.orderbook) ++ tail) ∧
    (∀ x ∈ quiet, x.Quiet) ∧ m'.exchange.completedTrades = m.exchange.completedTrades ++ ts ∧
    (tail = [] ∨ tail = printOrderBook m'.exchange ∨
      tail = [.completed m'.exchange.transactionFee])

theorem stepLines_nil {m m' : Main} {quiet : List LogLine} (hq : ∀ x ∈ quiet, x.Quiet)
    (h : m'.exchange.completedTrades = m.exchange.completedTrades) : StepLines m m' quiet :=
  ⟨quiet, [], [], by simp, hq, by rw [h, List.append_nil], Or.inl rfl⟩

theorem refusalLog_quiet {message : List Char} : ∀ x ∈ refusalLog message, x.Quiet := by
  intro x hx
  unfold refusalLog at hx
  split at hx
  · rw [List.mem_singleton.mp hx]
    trivial
  · split at hx
    · rw [List.mem_singleton.mp hx]
      trivial
    · split at hx
      · rw [List.mem_singleton.mp hx]
        trivial
      · cases hx

theorem disconnected_quiet (ts : List Trader) (pid : Int) (exited : Bool) :
    ∀ x ∈ (if exited then
        ts.zipIdx.filterMap fun (t, i) =>
          if (t.traderPid : Int) = pid then some (LogLine.disconnected i) else none
      else []), x.Quiet := by
  intro x hx
  split at hx
  · obtain ⟨p, _, hp⟩ := List.mem_filterMap.mp hx
    dsimp only at hp
    split at hp
    · cases hp
      trivial
    · cases hp
  · cases hx

/-- Behind the end a step does nothing and prints nothing. -/
theorem step_ended (fee : Int → Int) (hd : m.exchangeDisconnect = true) (i : Input) :
    mainNext fee m i = m ∧ stepLog fee m i = [] := by
  cases i <;> exact ⟨by simp [mainNext, mainStep, hd], by simp [stepLog, hd]⟩

/-- **The lines of a step.** -/
theorem step_lines (fee : Int → Int) (hok : MainOk m) (i : Input) :
    StepLines m (mainNext fee m i) (stepLog fee m i) := by
  have hidle : mainNext fee m i = m → stepLog fee m i = [] →
      StepLines m (mainNext fee m i) (stepLog fee m i) := by
    intro hm hlog
    rw [hm, hlog]
    exact stepLines_nil (fun x hx => by cases hx) rfl
  by_cases hd : m.exchangeDisconnect = true
  · exact hidle (step_ended fee hd i).1 (step_ended fee hd i).2
  have hd' : m.exchangeDisconnect = false := Bool.eq_false_iff.mpr hd
  cases i with
  | poll pid exited =>
      obtain ⟨hlog, htrades⟩ := stepLog_poll fee hd' pid exited
      rw [hlog]
      by_cases hend : (mainNext fee m (.poll pid exited)).exchangeDisconnect = true
      · rw [if_pos hend]
        exact ⟨_, [], _, rfl, disconnected_quiet _ _ _, by rw [htrades, List.append_nil],
          Or.inr (Or.inr rfl)⟩
      · rw [if_neg hend, List.append_nil]
        exact stepLines_nil (disconnected_quiet _ _ _) htrades
  | command pid text =>
      cases hf : findTrader m.exchange.traders pid with
      | none => exact hidle (by simp [mainNext, mainStep, hd', hf]) (by simp [stepLog, hd', hf])
      | some sender =>
          cases htr : m.exchange.traders[sender]? with
          | none =>
              exact hidle (by simp [mainNext, mainStep, hd', hf, htr])
                (by simp [stepLog, hd', hf, htr])
          | some tr =>
              have hquiet : ∀ x ∈ LogLine.parsing sender (messageOf tr text) ::
                  refusalLog (messageOf tr text), x.Quiet := by
                intro x hx
                rcases List.mem_cons.mp hx with rfl | hx
                · trivial
                · exact refusalLog_quiet x hx
              obtain ⟨log, hlog, v, hv, rfl, ts, hts⟩ :=
                stepLog_command fee hok.sound hd' hf htr text
              by_cases hinvalid : v = .INVALID
              · rw [hlog, if_pos hinvalid, List.append_nil]
                refine stepLines_nil hquiet (congrArg Exchange.completedTrades ?_)
                have hstep : mainStep fee m (.command pid text) =
                    handleMessage fee m sender pid tr text := by
                  simp [mainStep, hd', hf, htr]
                obtain ⟨v', hv', hsame⟩ := verdicts_step fee hok htr pid text
                rw [← hstep, hv] at hv'
                rw [mainNext, hstep]
                exact (hsame (List.singleton_inj.mp hv' ▸ hinvalid)).1
              · have hnew : newTrades m.exchange
                    (mainNext fee m (.command pid text)).exchange = ts := by
                  rw [newTrades, ← hts, List.drop_left]
                rw [hlog, if_neg hinvalid, acceptedLog, hnew]
                exact ⟨_, ts, _, rfl, hquiet, hts.symm, Or.inr (Or.inl rfl)⟩

end Steps

/-! ## 5. Pieces and fees -/

/-- All pieces of all traders. -/
def totalPieces (ts : List Trader) : Int := (ts.map fun t => t.inventoryQuantity.sum).sum

/-- What the auditor relies on besides the ledger. -/
structure Squared (fee : Int → Int) (e : Exchange) : Prop where
  names : e.products.Nodup
  pieces : totalPieces e.traders = 0
  taxes : ∀ y ∈ e.completedTrades, y.tax = fee (y.transactionQuantity * y.transactionPrice)

section Pieces

variable {fee : Int → Int} {e e' : Exchange} {side : OrderType} {r b : Nat} {o best : Order}

theorem totalPieces_shift {products : List Word} {ts : List Trader} {k : Nat} {y : Word}
    (hk : k < ts.length) (hy : y ∈ products)
    (hw : ∀ (k : Nat) (t : Trader), ts[k]? = some t → t.inventoryQuantity.length = products.length)
    (dq dv : Int) :
    totalPieces (ts.modify k (shift (productPos products y) dq dv)) = totalPieces ts + dq := by
  have hk' := List.getElem?_eq_getElem hk
  have hj : productPos products y < ts[k].inventoryQuantity.length := by
    rw [hw k _ hk']
    exact productPos_lt hy
  unfold totalPieces
  rw [sum_map_modify _ _ hk']
  have h := sum_map_modify id (· + dq) (List.getElem?_eq_getElem hj)
  simp only [List.map_id, id] at h
  show _ + ((ts[k].inventoryQuantity.modify _ (· + dq)).sum - _) = _
  omega

theorem width_shift {ts : List Trader} {n k j : Nat} {dq dv : Int}
    (hw : ∀ (k : Nat) (t : Trader), ts[k]? = some t → t.inventoryQuantity.length = n) (k' : Nat)
    (t : Trader) (ht : (ts.modify k (shift j dq dv))[k']? = some t) :
    t.inventoryQuantity.length = n := by
  obtain ⟨t₀, h₀, s₀⟩ := steady_modify (steady_shift _ _ _) ht
  rw [s₀.quantities]
  exact hw k' t₀ h₀

/-- What one side of a match gets the other one gives. -/
theorem totalPieces_match (hS : Sound e) (hnd : e.products.Nodup) (h : Match e side r b o best) :
    totalPieces (applyMatch fee e side r b o best).traders = totalPieces e.traders := by
  have hw := fun k t ht => (hS.width k t ht).1
  have ho := hS.item r o h.incoming
  have hb := hS.item b best h.inBook
  have hpayer : (payer o best).trader < e.traders.length ∧ (payer o best).item ∈ e.products := by
    rcases payer_cases o best with hc | hc <;> rw [hc]
    · exact ⟨hS.owner r o h.incoming, ho⟩
    · exact ⟨hS.owner b best h.inBook, hb⟩
  show totalPieces (settle e.products side o best _ _ _ e.traders) = _
  rw [settle_shifts hnd (fun k t ht => (hS.width k t ht).2),
    totalPieces_shift (by simpa using hpayer.1) hpayer.2 (width_shift (width_shift hw)),
    totalPieces_shift (by simpa using hS.owner b best h.inBook) hb (width_shift hw),
    totalPieces_shift (hS.owner r o h.incoming) ho hw]
  cases side <;> simp only [signedQ, OrderType.other] <;> omega

theorem squared_match (hS : Sound e) (hQ : Squared fee e) (h : Match e side r b o best) :
    Squared fee (applyMatch fee e side r b o best) := by
  refine ⟨hQ.names, (totalPieces_match hS hQ.names h).trans hQ.pieces, fun y hy => ?_⟩
  rcases List.mem_append.mp hy with hy | hy
  · exact hQ.taxes y hy
  · rw [List.mem_singleton.mp hy]
    rfl

theorem squared_of_positions (hQ : Squared fee e) (hp : e'.products = e.products)
    (hlog : e'.completedTrades = e.completedTrades)
    (ht : e'.traders.map (·.inventoryQuantity) = e.traders.map (·.inventoryQuantity)) :
    Squared fee e' := by
  refine ⟨hp ▸ hQ.names, ?_, hlog ▸ hQ.taxes⟩
  have h := congrArg (fun l => (l.map List.sum).sum) ht
  simp only [List.map_map] at h
  exact h.trans hQ.pieces

end Pieces

theorem squared_next (fee : Int → Int) {m : Main} (hS : Sound m.exchange)
    (hQ : Squared fee m.exchange) (i : Input) : Squared fee (mainNext fee m i).exchange := by
  refine (mainNext_inv (I := Squared fee) (fun e side r b o best hS hQ hM => squared_match hS hQ hM)
    hS ?_ ?_ ?_ ?_ ?_).2
  · intro t o _ _
    refine squared_of_positions hQ rfl rfl ?_
    show (m.exchange.traders.modify t _).map _ = _
    refine map_modify_same (fun _ => ?_) _ _
    rfl
  · intro t k o old _ _
    refine squared_of_positions hQ rfl rfl ?_
    show (m.exchange.traders.modify t _).map _ = _
    refine map_modify_same (fun _ => ?_) _ _
    rfl
  · exact fun _ => hQ
  · exact fun r o _ _ _ => squared_of_positions hQ rfl rfl rfl
  · exact fun pid _ => squared_of_positions hQ rfl rfl (markTraders_map (fun _ => rfl) _ _)

theorem squared_init (fee : Int → Int) {products : List Word} (hnd : products.Nodup)
    (pids : List Nat) (argv : List Word) : Squared fee (mainInit products pids argv).exchange := by
  refine ⟨hnd, ?_, fun y hy => by cases hy⟩
  simp [totalPieces, mainInit, instTrader, Function.comp_def]

/-! ## 6. Every run passes the audit -/

section Blocks

variable {fee : Int → Int} {e : Exchange}

/-- The columns of a row are the two arrays of the trader. -/
theorem positionRow_columns {products : List Word} {t : Trader}
    (hq : t.inventoryQuantity.length = products.length) (hb : t.bank.length = products.length) :
    (positionRow products t).map (·.2.1) = t.inventoryQuantity ∧
      (positionRow products t).map (·.2.2) = t.bank := by
  have hpair : (positionRow products t).map Prod.snd = t.inventoryQuantity.zip t.bank := by
    unfold positionRow
    exact List.map_snd_zip (by rw [List.length_zip]; omega)
  have hfst : (t.inventoryQuantity.zip t.bank).map Prod.fst = t.inventoryQuantity :=
    List.map_fst_zip (by omega)
  have hsnd : (t.inventoryQuantity.zip t.bank).map Prod.snd = t.bank := List.map_snd_zip (by omega)
  rw [← hpair, List.map_map] at hfst hsnd
  exact ⟨hfst, hsnd⟩

/-- **The block of a sound state balances** with its fees. -/
theorem balanced_positions (hS : Sound e) (hL : Ledger e) (hQ : Squared fee e) :
    Balanced e.transactionFee (e.traders.map (positionRow e.products)) := by
  have hrow : ∀ t ∈ e.traders, (positionRow e.products t).map (·.2.1) = t.inventoryQuantity ∧
      (positionRow e.products t).map (·.2.2) = t.bank := by
    intro t ht
    obtain ⟨k, hk⟩ := List.mem_iff_getElem?.mp ht
    obtain ⟨hq, hb⟩ := hS.width k t hk
    exact positionRow_columns hq hb
  have hbank : (e.traders.map (positionRow e.products)).map (fun row => (row.map (·.2.2)).sum) =
      e.traders.map fun t => t.bank.sum := by
    rw [List.map_map]
    exact List.map_congr_left fun t ht => congrArg List.sum (hrow t ht).2
  have hpieces : (e.traders.map (positionRow e.products)).map (fun row => (row.map (·.2.1)).sum) =
      e.traders.map fun t => t.inventoryQuantity.sum := by
    rw [List.map_map]
    exact List.map_congr_left fun t ht => congrArg List.sum (hrow t ht).1
  unfold Balanced
  rw [hbank, hpieces]
  exact ⟨hL.zero, hQ.pieces⟩

theorem audit_run (fee : Int → Int) : ∀ (is : List Input) {m : Main}, MainOk m → Ledger m.exchange →
    Squared fee m.exchange → Audit fee m.exchange.transactionFee (runLog fee m is) := by
  intro is
  induction is with
  | nil => exact fun _ _ _ => trivial
  | cons i is ih =>
      intro m hok hL hQ
      have hok' := mainOk_next fee hok i
      have hL' := ledger_next fee hok.sound hL i
      have hQ' := squared_next fee hok.sound hQ i
      have hrest := ih hok' hL' hQ'
      obtain ⟨quiet, ts, tail, hlog, hquiet, htrades, htail⟩ := step_lines fee hok i
      have hmem : ∀ y ∈ ts, y ∈ (mainNext fee m i).exchange.completedTrades := by
        intro y hy
        rw [htrades]
        exact List.mem_append_right _ hy
      have hbook : ∀ y ∈ ts, y.incomingOrder < (mainNext fee m i).exchange.orderbook.length ∧
          y.orderInBook < (mainNext fee m i).exchange.orderbook.length := by
        intro y hy
        obtain ⟨a, b, ha, hb, _⟩ := hok'.sound.trades y (hmem y hy)
        exact ⟨(List.getElem?_eq_some_iff.mp ha).1, (List.getElem?_eq_some_iff.mp hb).1⟩
      have hfees : m.exchange.transactionFee + (ts.map (·.tax)).sum =
          (mainNext fee m i).exchange.transactionFee := by
        rw [hL'.fees, htrades, List.map_append, List.sum_append, hL.fees]
      rw [runLog, hlog, List.append_assoc, List.append_assoc, audit_quiet hquiet,
        audit_matches hbook fun y hy => hQ'.taxes y (hmem y hy), hfees]
      rcases htail with rfl | rfl | rfl
      · exact hrest
      · exact ⟨balanced_positions hok'.sound hL' hQ', hrest⟩
      · exact ⟨rfl, hrest⟩

theorem tail_matches {m : Main} {tail : List LogLine}
    (h : tail = [] ∨ tail = printOrderBook m.exchange ∨
      tail = [.completed m.exchange.transactionFee]) : tail.filter LogLine.isMatch = [] := by
  rcases h with rfl | rfl | rfl <;> rfl

/-- The Match lines of a run are the trades it adds, by the keys of their orders at the end. -/
theorem matches_run (fee : Int → Int) : ∀ (is : List Input) {m : Main}, MainOk m →
    ∃ ts, (run (mainNext fee) m is).exchange.completedTrades = m.exchange.completedTrades ++ ts ∧
      (runLog fee m is).filter LogLine.isMatch =
        ts.filterMap (matchLine (run (mainNext fee) m is).exchange.orderbook) ∧
      Grows m.exchange.orderbook (run (mainNext fee) m is).exchange.orderbook := by
  intro is
  induction is with
  | nil => exact fun _ => ⟨[], (List.append_nil _).symm, rfl, Grows.refl _⟩
  | cons i is ih =>
      intro m hok
      have hok' := mainOk_next fee hok i
      obtain ⟨us, hus, hmatch, hg⟩ := ih hok'
      obtain ⟨quiet, ts, tail, hlog, hquiet, htrades, htail⟩ := step_lines fee hok i
      refine ⟨ts ++ us, ?_, ?_, (next_grows fee hok.sound i).trans hg⟩
      · show (run (mainNext fee) (mainNext fee m i) is).exchange.completedTrades = _
        rw [hus, htrades, List.append_assoc]
      · show _ = (ts ++ us).filterMap
          (matchLine (run (mainNext fee) (mainNext fee m i) is).exchange.orderbook)
        rw [runLog, hlog, List.filter_append, List.filter_append, List.filter_append,
          quiet_matches hquiet, tail_matches htail, hmatch, filter_matches, List.filterMap_append,
          List.nil_append, List.append_nil]
        refine congrArg (· ++ _) (List.filterMap_congr fun y hy => ?_)
        obtain ⟨a, b, ha, hb, _⟩ := hok'.sound.trades y (by
          rw [htrades]
          exact List.mem_append_right _ hy)
        unfold matchLine
        rw [keyAt_grows hg (List.getElem?_eq_some_iff.mp ha).1,
          keyAt_grows hg (List.getElem?_eq_some_iff.mp hb).1]

end Blocks

/-! ## 7. What is printed -/

section Printed

variable {fee : Int → Int}

theorem stored_positions {e : Exchange} (h : FitsTypes e) :
    (LogLine.positions (e.traders.map (positionRow e.products))).stored =
      .positions (e.traders.map (positionRow e.products)) := by
  have hrow : ∀ t ∈ e.traders, (positionRow e.products t).map
      (fun entry => (entry.1, toInt32 entry.2.1, toInt64 entry.2.2)) =
      positionRow e.products t := by
    intro t ht
    obtain ⟨hq, hb⟩ := h.1 t ht
    refine (List.map_congr_left fun entry hm => ?_).trans (List.map_id _)
    obtain ⟨_, hm⟩ := List.of_mem_zip hm
    obtain ⟨hmq, hmb⟩ := List.of_mem_zip hm
    exact Prod.ext rfl (Prod.ext (toInt32_of_range (hq _ hmq)) (toInt64_of_range (hb _ hmb)))
  show LogLine.positions ((e.traders.map (positionRow e.products)).map _) = _
  rw [List.map_map]
  exact congrArg LogLine.positions (List.map_congr_left hrow)

theorem stored_match {book : List Order} {y : Trade} (h : TradeInRange y) {line : LogLine}
    (hl : matchLine book y = some line) : line.stored = line := by
  have hvalue := h.value
  have htax := h.tax
  unfold maxQuantity maxUnitPrice at hvalue htax
  unfold matchLine at hl
  split at hl
  · cases hl
    show LogLine.matched _ _ (toInt64 _) (toInt64 _) = _
    rw [toInt64_of_range (by omega), toInt64_of_range (by omega)]
  · cases hl

theorem stored_quiet {line : LogLine} (h : line.Quiet) : line.stored = line := by
  cases line with
  | parsing _ _ => rfl
  | refused _ => rfl
  | disconnected _ => rfl
  | matched _ _ _ _ => exact h.elim
  | orderBook _ => exact h.elim
  | positions _ => exact h.elim
  | completed _ => exact h.elim

/-- **No amount of the first 2147 trades is cut off where it is printed.** -/
theorem stored_run (hfee : ModestFee fee) : ∀ (is : List Input) {m : Main}, MainOk m →
    Ledger m.exchange → Ranged m.exchange →
    (run (mainNext fee) m is).exchange.completedTrades.length ≤ 2147 →
    ∀ line ∈ runLog fee m is, line.stored = line := by
  intro is
  induction is with
  | nil => exact fun _ _ _ _ _ hx => absurd hx List.not_mem_nil
  | cons i is ih =>
      intro m hok hL hR hn
      have hok' := mainOk_next fee hok i
      have hL' := ledger_next fee hok.sound hL i
      have hR' := ranged_next hfee hok.sound hR i
      have hle : (mainNext fee m i).exchange.completedTrades.length ≤ 2147 := by
        obtain ⟨us, hus, -⟩ := matches_run fee is hok'
        rw [show run (mainNext fee) m (i :: is) = run (mainNext fee) (mainNext fee m i) is from rfl,
          hus, List.length_append] at hn
        omega
      have hfits := fitsTypes_of_ledger hL' hok'.sound hR' hle
      obtain ⟨quiet, ts, tail, hlog, hquiet, htrades, htail⟩ := step_lines fee hok i
      intro line hline
      rw [runLog, hlog] at hline
      rcases List.mem_append.mp hline with hline | hline
      · rcases List.mem_append.mp hline with hq | hline
        · exact stored_quiet (hquiet line hq)
        · rcases List.mem_append.mp hline with hm | ht
          · obtain ⟨y, hy, hl⟩ := List.mem_filterMap.mp hm
            refine stored_match (hR'.trades y ?_) hl
            rw [htrades]
            exact List.mem_append_right _ hy
          · rcases htail with rfl | rfl | rfl
            · exact absurd ht List.not_mem_nil
            · rcases List.mem_cons.mp ht with rfl | ht
              · rfl
              · rw [List.mem_singleton.mp ht]
                exact stored_positions hfits
            · rw [List.mem_singleton.mp ht]
              obtain ⟨_, h0, hlt⟩ := hfits
              exact congrArg LogLine.completed (toInt64_of_range (by omega))
      · exact ih hok' hL' hR' hn line hline

end Printed

/-! ## 8. What stands in the output -/

/-- The output shows a trade: who trades with whom, its value and its fee. -/
def MatchShown (fee : Int → Int) (book : List Order) (output : List Char) (y : Trade) : Prop :=
  ∃ t i u j, keyAt book y.orderInBook = some (t, i) ∧ keyAt book y.incomingOrder = some (u, j) ∧
    "[PEX] Match: Order ".toList ++ itoa i ++ " [T".toList ++ itoa t ++ "], New Order ".toList ++
      itoa j ++ " [T".toList ++ itoa u ++ "], value: $".toList ++
      itoa (y.transactionQuantity * y.transactionPrice) ++ ", fee: $".toList ++
      itoa (fee (y.transactionQuantity * y.transactionPrice)) ++ ".\n".toList <:+: output

/-- The output shows the positions of all traders. -/
def PositionsShown (e : Exchange) (output : List Char) : Prop :=
  ("[PEX]\t--POSITIONS--\n".toList ++ e.traders.zipIdx.flatMap fun (t, k) =>
    "[PEX]\tTrader ".toList ++ itoa k ++ ": ".toList ++
      ", ".toList.intercalate ((e.products.zip (t.inventoryQuantity.zip t.bank)).map
        fun (product, pieces, dollars) =>
          product ++ " ".toList ++ itoa pieces ++ " ($".toList ++ itoa dollars ++ ")".toList) ++
      "\n".toList) <:+: output

/-- The output ends with the fees. -/
def FeesShown (e : Exchange) (output : List Char) : Prop :=
  "[PEX] Trading completed\n[PEX] Exchange fees collected: $".toList ++ itoa e.transactionFee ++
    "\n".toList <:+ output

/-- The message of a trader is answered, and not by INVALID. -/
def Taken (fee : Int → Int) (m : Main) (pid : Nat) (text : List Char) : Prop :=
  ∃ sender v, findTrader m.exchange.traders pid = some sender ∧
    verdicts sender (mainStep fee m (.command pid text)).2 = [v] ∧ v ≠ .INVALID

section Shown

variable {fee : Int → Int} {m : Main}

theorem runLog_append (fee : Int → Int) (is js : List Input) : ∀ m : Main,
    runLog fee m (is ++ js) = runLog fee m is ++ runLog fee (run (mainNext fee) m is) js := by
  induction is with
  | nil => exact fun _ => rfl
  | cons i is ih =>
      intro m
      rw [List.cons_append, runLog, runLog, ih, List.append_assoc]
      rfl

theorem ended_run (fee : Int → Int) (is : List Input) {m : Main}
    (h : m.exchangeDisconnect = true) : run (mainNext fee) m is = m ∧ runLog fee m is = [] := by
  induction is with
  | nil => exact ⟨rfl, rfl⟩
  | cons i is ih =>
      obtain ⟨hnext, hlog⟩ := step_ended fee h i
      rw [runLog, hlog, hnext, List.nil_append]
      refine ⟨?_, ih.2⟩
      show run (mainNext fee) (mainNext fee m i) is = m
      rw [hnext]
      exact ih.1

theorem text_infix {log : List LogLine} {line : LogLine} (h : line ∈ log) :
    line.text <:+: log.flatMap LogLine.text := by
  rw [List.flatMap_def]
  exact List.infix_of_mem_flatten (List.mem_map_of_mem h)

theorem matchShown_of_line {book : List Order} {log : List LogLine} {y : Trade} {line : LogLine}
    (hl : matchLine book y = some line) (hmem : line ∈ log)
    (htax : y.tax = fee (y.transactionQuantity * y.transactionPrice)) :
    MatchShown fee book (log.flatMap LogLine.text) y := by
  unfold matchLine at hl
  split at hl
  · rename_i inBook incoming h1 h2
    cases hl
    have hhead : "[PEX] Match: Order ".toList = logPrefix ++ " Match: Order ".toList := by decide
    have htext := text_infix hmem
    rw [LogLine.text, ← hhead, htax] at htext
    exact ⟨inBook.1, inBook.2, incoming.1, incoming.2, h1, h2, htext⟩
  · cases hl

theorem positions_text (e : Exchange) :
    LogLine.text (.positions (e.traders.map (positionRow e.products))) =
      "[PEX]\t--POSITIONS--\n".toList ++ e.traders.zipIdx.flatMap fun (t, k) =>
        "[PEX]\tTrader ".toList ++ itoa k ++ ": ".toList ++
          ", ".toList.intercalate ((e.products.zip (t.inventoryQuantity.zip t.bank)).map
            fun (product, pieces, dollars) =>
              product ++ " ".toList ++ itoa pieces ++ " ($".toList ++ itoa dollars ++
                ")".toList) ++ "\n".toList := by
  have hhead : logPrefix ++ "\t--POSITIONS--\n".toList = "[PEX]\t--POSITIONS--\n".toList := by
    decide
  have hname : logPrefix ++ "\tTrader ".toList = "[PEX]\tTrader ".toList := by decide
  have hentry : entryText = fun entry : Word × Int × Int => entry.1 ++ " ".toList ++
      itoa entry.2.1 ++ " ($".toList ++ itoa entry.2.2 ++ ")".toList := by
    funext entry
    rw [entryText, List.append_cons _ ' ']
    rfl
  rw [LogLine.text, hhead, List.zipIdx_map, List.flatMap_map]
  refine congrArg (_ ++ ·) (List.flatMap_congr fun a _ => ?_)
  show rowText a.2 (positionRow e.products a.1) = _
  rw [rowText, hname, hentry]
  rfl

theorem positionsShown_of_block {e : Exchange} {log : List LogLine}
    (h : ∀ line ∈ printOrderBook e, line ∈ log) :
    PositionsShown e (log.flatMap LogLine.text) := by
  unfold PositionsShown
  rw [← positions_text]
  exact text_infix (h _ (List.mem_cons_of_mem _ List.mem_cons_self))

theorem feesShown_of_line {e : Exchange} {log : List LogLine}
    (h : [.completed e.transactionFee] <:+ log) : FeesShown e (log.flatMap LogLine.text) := by
  obtain ⟨before, rfl⟩ := h
  have hhead : "[PEX] Trading completed\n[PEX] Exchange fees collected: $".toList =
      logPrefix ++ " Trading completed\n".toList ++ logPrefix ++
        " Exchange fees collected: $".toList := by decide
  rw [List.flatMap_append, List.flatMap_singleton, FeesShown, hhead]
  exact List.suffix_append _ _

/-- **The block behind a message that is taken** is that of the state it leaves. -/
theorem block_of_taken (hS : Sound m.exchange) {pid : Nat} {text : List Char}
    (h : Taken fee m pid text) :
    ∀ line ∈ printOrderBook (mainNext fee m (.command pid text)).exchange,
      line ∈ stepLog fee m (.command pid text) := by
  obtain ⟨sender, v, hf, hv, hne⟩ := h
  have hd : m.exchangeDisconnect = false := by
    refine Bool.eq_false_iff.mpr fun hd => ?_
    rw [mainStep, if_pos hd] at hv
    cases hv
  have htr := List.getElem?_eq_getElem (List.findIdx?_eq_some_iff_getElem.mp hf).1
  obtain ⟨log, hlog, v', hv', hlines, -⟩ := stepLog_command fee hS hd hf htr text
  rw [hv] at hv'
  rw [← List.singleton_inj.mp hv', if_neg hne] at hlines
  intro line hline
  rw [hlog, hlines]
  exact List.mem_append_right _ (List.mem_append_right _ hline)

/-- **At the end the fees are printed**, and nothing behind them. -/
theorem completed_run (fee : Int → Int) : ∀ (is : List Input) {m : Main},
    m.exchangeDisconnect = false → (run (mainNext fee) m is).exchangeDisconnect = true →
    [.completed (run (mainNext fee) m is).exchange.transactionFee] <:+ runLog fee m is := by
  intro is
  induction is with
  | nil =>
      intro m hd hend
      exact absurd (hd.symm.trans hend) Bool.false_ne_true
  | cons i is ih =>
      intro m hd hend
      rw [runLog]
      by_cases hnext : (mainNext fee m i).exchangeDisconnect = true
      · -- nothing happens any more
        obtain ⟨hstay, hlog⟩ := ended_run fee is hnext
        have hrun : run (mainNext fee) m (i :: is) = mainNext fee m i := hstay
        rw [hrun, hlog, List.append_nil]
        cases i with
        | command pid text =>
            rw [(command_online fee m pid text).2] at hnext
            exact absurd (hd.symm.trans hnext) Bool.false_ne_true
        | poll pid exited =>
            rw [(stepLog_poll fee hd pid exited).1, if_pos hnext]
            exact List.suffix_append _ _
      · exact (ih (Bool.eq_false_iff.mpr hnext) hend).trans (List.suffix_append _ _)

end Shown

theorem squared_run (fee : Int → Int) {products : List Word} (hnd : products.Nodup)
    (pids : List Nat) (argv : List Word) (is : List Input) :
    Squared fee (mainRun fee products pids argv is).exchange :=
  reachable_inv (I := fun m => Squared fee m.exchange) (squared_init fee hnd pids argv)
    (fun _ i hok h => squared_next fee hok.sound h i) is

/-- **The output of every run of at most 2147 trades passes the audit**, for every list of distinct
    product names: it is the text of lines with exact amounts, each fee printed is the fee of the
    value printed, the dollars of every block come to minus the fees so far and its pieces to
    nothing, and the amount at the end is the sum of the fees. The Match lines are the trades of the
    market, one for one and in order; behind every message that is taken stand the positions it
    leaves, and the fees stand at the end. -/
theorem log_audits (fee : Int → Int) (hfee : ModestFee fee) (products : List Word)
    (hnd : products.Nodup) (pids : List Nat) (argv : List Word) (is : List Input)
    (hn : (mainRun fee products pids argv is).exchange.completedTrades.length ≤ 2147) :
    let m := mainInit products pids argv
    let log := runLog fee m is
    let output := printed fee m is
    let e := (mainRun fee products pids argv is).exchange
    output = log.flatMap LogLine.text ∧
      Audit fee 0 log ∧
      log.filter LogLine.isMatch = e.completedTrades.filterMap (matchLine e.orderbook) ∧
      (log.filter LogLine.isMatch).length = e.completedTrades.length ∧
      (∀ y ∈ e.completedTrades, MatchShown fee e.orderbook output y) ∧
      (∀ (js ks : List Input) (pid : Nat) (text : List Char), is = js ++ .command pid text :: ks →
        Taken fee (mainRun fee products pids argv js) pid text →
          PositionsShown (mainRun fee products pids argv (js ++ [.command pid text])).exchange
            output) ∧
      ((mainRun fee products pids argv is).exchangeDisconnect = true → FeesShown e output) := by
  intro m log output e
  have hok := mainOk_init products pids argv
  have hL := ledger_init hnd pids argv
  have hstored := stored_run hfee is hok hL (ranged_run hfee products pids argv []) hn
  have haudit := audit_run fee is hok hL (squared_init fee hnd pids argv)
  obtain ⟨ts, hts, hmatch, _⟩ := matches_run fee is hok
  have hlog : log.filter LogLine.isMatch = e.completedTrades.filterMap (matchLine e.orderbook) := by
    have htrades : e.completedTrades = ts := hts
    rw [htrades]
    exact hmatch
  have houtput : output = log.flatMap LogLine.text := by
    show printed fee m is = _
    unfold printed
    rw [List.flatMap_def, List.flatMap_def, List.map_congr_left fun line hline =>
      congrArg LogLine.text (hstored line hline)]
  have hlines : ∀ y ∈ e.completedTrades, ∃ line, matchLine e.orderbook y = some line := by
    intro y hy
    obtain ⟨a, b, ha, hb, _⟩ := (mainOk_run fee products pids argv is).sound.trades y hy
    obtain ⟨k, k', hline⟩ := matchLine_some (List.getElem?_eq_some_iff.mp ha).1
      (List.getElem?_eq_some_iff.mp hb).1
    exact ⟨_, hline⟩
  rw [houtput]
  refine ⟨rfl, haudit, hlog, ?_, fun y hy => ?_, fun js ks pid text his ht => ?_, fun hend => ?_⟩
  · rw [hlog, List.length_filterMap_eq_countP, List.countP_eq_length]
    intro y hy
    obtain ⟨line, hline⟩ := hlines y hy
    rw [hline]
    rfl
  · obtain ⟨line, hline⟩ := hlines y hy
    have hmem : line ∈ log.filter LogLine.isMatch := by
      rw [hlog]
      exact List.mem_filterMap.mpr ⟨y, hy, hline⟩
    exact matchShown_of_line hline (List.mem_filter.mp hmem).1
      ((squared_run fee hnd pids argv is).taxes y hy)
  · refine positionsShown_of_block fun line hline => ?_
    have hmem := block_of_taken (mainOk_run fee products pids argv js).sound ht line (by
      rwa [mainRun, run_append] at hline)
    show line ∈ runLog fee m is
    rw [his, runLog_append, runLog]
    exact List.mem_append_right _ (List.mem_append_left _ hmem)
  · exact feesShown_of_line (completed_run fee is rfl hend)

/-- The Match line of two commands that trade. -/
example :
    (runLog (fun v => (v + 50) / 100) (mainInit ["GPU".toList] [10, 11] (List.replicate 6 []))
      [.command 10 "SELL 0 GPU 4 100;".toList, .command 11 "BUY 0 GPU 4 100;".toList]).filterMap
        (fun line => if line.isMatch then some line.text else none) =
    ["[PEX] Match: Order 0 [T0], New Order 0 [T1], value: $400, fee: $4.\n".toList] := by
  decide +kernel

/-- One trade, and both traders leave. -/
theorem log_audits_oneTrade :
    let is := [Input.command 10 "SELL 0 GPU 4 100;".toList, .command 11 "BUY 0 GPU 6 100;".toList,
      .poll 10 true, .poll 11 true]
    let fee := fun v : Int => (v + 50) / 100
    let m := mainInit ["GPU".toList] [10, 11] (List.replicate 6 [])
    let output := printed fee m is
    ModestFee fee ∧ ["GPU".toList].Nodup ∧
      output = (runLog fee m is).flatMap LogLine.text ∧ Audit fee 0 (runLog fee m is) ∧
      PositionsShown (run (mainNext fee) m (is.take 2)).exchange output ∧
      "[PEX] Trading completed\n[PEX] Exchange fees collected: $4\n".toList <:+ output := by
  intro is fee m output
  have hnd : ["GPU".toList].Nodup := by decide
  obtain ⟨htext, haudit, -, -, -, hpositions, hend⟩ := log_audits fee modestFee_percent
    ["GPU".toList] hnd [10, 11] (List.replicate 6 []) is (by decide +kernel)
  have hfees : (mainRun fee ["GPU".toList] [10, 11] (List.replicate 6 []) is).exchange.transactionFee
      = 4 := by decide +kernel
  have hline : "[PEX] Trading completed\n[PEX] Exchange fees collected: $".toList ++ itoa 4 ++
      "\n".toList = "[PEX] Trading completed\n[PEX] Exchange fees collected: $4\n".toList := by
    decide +kernel
  have hshown := hend (by decide +kernel)
  unfold FeesShown at hshown
  rw [hfees, hline] at hshown
  exact ⟨modestFee_percent, hnd, htext, haudit, hpositions (is.take 1) (is.drop 2) 11 _ rfl
    ⟨1, .ACCEPTED, by decide +kernel, by decide +kernel, by decide⟩, hshown⟩

end SysProg.Pe
