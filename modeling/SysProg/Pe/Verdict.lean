/-
  File:      SysProg/Pe/Verdict.lean
  Subject:   THE ANSWER TO A COMMAND.

  A trader that sends a command is written ACCEPTED, AMENDED, CANCELLED or
  INVALID, once; the broadcast goes to the others, and what else it may be
  written are FILLs. The checks that lead to INVALID are spread over
  `read_message`, `newOrder`, `amend` and the CANCEL branch; all of them come
  before the first change.

  * `verdictOf`, `verdicts` -- the answers among the messages to a trader;
  * `verdicts_step` -- exactly one answer, and after INVALID the exchange is
    as before and nobody else was written to;
  * `command_answered` -- for every reachable state.
-/
import SysProg.Pe.Notify

namespace SysProg.Pe

open Lib

/-! ## 1. Answers -/

inductive Verdict where
  | ACCEPTED : Verdict
  | AMENDED : Verdict
  | CANCELLED : Verdict
  | INVALID : Verdict
  deriving DecidableEq, Repr

/-- The answer a message is, by its first word. -/
def verdictOf (text : List Char) : Option Verdict :=
  let word := text.takeWhile fun c => c ≠ ' ' && c ≠ ';'
  if word = "ACCEPTED".toList then some .ACCEPTED
  else if word = "AMENDED".toList then some .AMENDED
  else if word = "CANCELLED".toList then some .CANCELLED
  else if word = "INVALID".toList then some .INVALID
  else none

/-- The answers that are written to trader `t`. -/
def verdicts (t : Nat) (es : List Event) : List Verdict := (writtenTo t es).filterMap verdictOf

theorem verdictOf_accepted (d : Int) : verdictOf (acceptedText d) = some .ACCEPTED := rfl

theorem verdictOf_amended (w : Word) : verdictOf (amendedText w) = some .AMENDED := rfl

theorem verdictOf_cancelled (d : Int) : verdictOf (cancelledText d) = some .CANCELLED := rfl

theorem verdictOf_fill (d q : Int) : verdictOf (fillText d q) = none := rfl

/-! ## 2. The answers of a trace -/

section Traces

variable {t pid : Nat} {es es' : List Event}

theorem verdicts_append : verdicts t (es ++ es') = verdicts t es ++ verdicts t es' := by
  unfold verdicts writtenTo
  rw [List.filterMap_append, List.filterMap_append]

theorem verdicts_notify {text : List Char} {v : Verdict} (h : verdictOf text = some v) :
    verdicts t (notify t pid text) = [v] := by
  simp [verdicts, writtenTo, notify, h]

/-- Where nothing that is written to the trader is an answer. -/
theorem verdicts_eq_nil (h : ∀ text, Event.write t text ∈ es → verdictOf text = none) :
    verdicts t es = [] :=
  List.filterMap_eq_nil_iff.mpr fun text ht => h text (mem_writtenTo.mp ht)

/-- A branch of the switch: the answer, a broadcast, and FILLs. -/
theorem verdicts_branch {ts : List Trader} {text text' : List Char} {v : Verdict}
    (hv : verdictOf text = some v) (hes : ∀ x, Event.write t x ∈ es → ∃ d q, x = fillText d q) :
    verdicts t (notify t pid text ++ broadcast ts t text' ++ es) = [v] := by
  have hothers : verdicts t (broadcast ts t text') = [] :=
    verdicts_eq_nil fun x hx => absurd rfl (write_broadcast hx).1
  have hfills : verdicts t es = [] := by
    refine verdicts_eq_nil fun x hx => ?_
    obtain ⟨d, q, rfl⟩ := hes x hx
    exact verdictOf_fill d q
  rw [verdicts_append, verdicts_append, verdicts_notify hv, hothers, hfills]
  rfl

end Traces

/-! ## 3. Every command -/

/-- **One answer to the message of a trader; INVALID changes nothing.** -/
theorem verdicts_step (fee : Int → Int) {m : Main} (hok : MainOk m) {sender : Nat} {tr : Trader}
    (htr : m.exchange.traders[sender]? = some tr) (pid : Nat) (text : List Char) :
    ∃ v, verdicts sender (handleMessage fee m sender pid tr text).2 = [v] ∧
      (v = .INVALID →
        (handleMessage fee m sender pid tr text).1.exchange = m.exchange ∧
        ∀ t x, Event.write t x ∈ (handleMessage fee m sender pid tr text).2 → t = sender) := by
  rcases message_cases fee m sender pid tr text with ⟨argv, order, _, _, _, h⟩ |
    ⟨argv, o, _, hnew, _, h⟩ | ⟨argv, k, o, _, hs, _, h⟩ | ⟨argv, d, r, o, _, _, _, _, h⟩
  · rw [h]
    refine ⟨.INVALID, verdicts_notify rfl, fun _ => ⟨rfl, fun t x hx => ?_⟩⟩
    exact (write_notify.mp hx).1.symm
  · rw [h, orderReceived_some hnew]
    refine ⟨.ACCEPTED, ?_, fun hv => by cases hv⟩
    exact verdicts_branch (verdictOf_accepted _) fun x hx => write_loop _ hx
  · obtain ⟨_, old, hold⟩ := amendSearch_spec hok.sound.toBookOk htr hs
    rw [h, amendRequest_some hok.sound htr hold hs]
    refine ⟨.AMENDED, ?_, fun hv => by cases hv⟩
    exact verdicts_branch (verdictOf_amended _) fun x hx => write_loop _ hx
  · rw [h]
    refine ⟨.CANCELLED, ?_, fun hv => by cases hv⟩
    rw [← List.append_nil (_ ++ _)]
    exact verdicts_branch (verdictOf_cancelled _) fun x hx => absurd hx List.not_mem_nil

/-- **Every command of a trader is answered once, and INVALID leaves everything as it was**: the
    orders, the log, the fees, the traders, and nobody but the sender is written to. -/
theorem command_answered (fee : Int → Int) (products : List Word) (pids : List Nat)
    (argv : List Word) (is : List Input) (pid sender : Nat) (text : List Char)
    (hrun : (mainRun fee products pids argv is).exchangeDisconnect = false)
    (hsender : findTrader (mainRun fee products pids argv is).exchange.traders pid = some sender) :
    let m := mainRun fee products pids argv is
    ∃ v, verdicts sender (mainStep fee m (.command pid text)).2 = [v] ∧
      (v = .INVALID → (mainStep fee m (.command pid text)).1.exchange = m.exchange ∧
        ∀ t x, Event.write t x ∈ (mainStep fee m (.command pid text)).2 → t = sender) := by
  intro m
  have hlt : sender < m.exchange.traders.length :=
    (List.findIdx?_eq_some_iff_getElem.mp hsender).1
  have htr := List.getElem?_eq_getElem hlt
  have hstep : mainStep fee m (.command pid text) =
      handleMessage fee m sender pid m.exchange.traders[sender] text := by
    simp [mainStep, show m.exchangeDisconnect = false from hrun,
      show findTrader m.exchange.traders pid = some sender from hsender, htr]
  rw [hstep]
  exact verdicts_step fee (mainOk_run fee products pids argv is) htr pid text

/-- An id beyond the next one, after a first order. -/
theorem command_answered_badId :
    let m := mainRun (· / 100) ["GPU".toList] [10, 11] (List.replicate 6 [])
      [.command 10 "SELL 0 GPU 4 100;".toList]
    findTrader m.exchange.traders 11 = some 1 ∧
    ∃ v, verdicts 1 (mainStep (· / 100) m (.command 11 "BUY 7 GPU 4 100;".toList)).2 = [v] ∧
      (v = .INVALID → (mainStep (· / 100) m (.command 11 "BUY 7 GPU 4 100;".toList)).1.exchange =
          m.exchange ∧
        ∀ t x, Event.write t x ∈ (mainStep (· / 100) m (.command 11 "BUY 7 GPU 4 100;".toList)).2 →
          t = 1) :=
  ⟨by decide +kernel, command_answered (· / 100) ["GPU".toList] [10, 11] (List.replicate 6 [])
    [.command 10 "SELL 0 GPU 4 100;".toList] 11 1 "BUY 7 GPU 4 100;".toList (by decide +kernel)
    (by decide +kernel)⟩

end SysProg.Pe
