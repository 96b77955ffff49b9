/-
  File:      SysProg/Pe/Signals.lean
  Subject:   THE SIGNAL ARRAY: `sig_handler` stores, main makes room.

  The handler stores at `signal_array[signal_count]` whenever a signal comes
  in, also in the middle of an iteration. main looks once for each signal it
  has handled, and grows the array if `signal_count` is then exactly ten below
  its size. A signal that arrives at that count before main has looked takes
  it past: the test is never true again.

  * `SignalQueue`, `queueNext` -- the handler against main, test and growth
    apart; `loop_signals` -- the event loop of EventLoop.lean is such a run;
  * `InTime` -- the condition on an arriving signal;
  * `Roomy`, `roomy_next` -- the invariant of the runs that meet it;
  * `Missed`, `missed_next` -- what is left once it is broken;
  * `signals_in_bounds` -- no store is out of bounds in a run that meets it;
    after one that does not, ten more signals are enough.
-/
import SysProg.Pe.EventLoop

namespace SysProg.Pe

open Lib

/-! ## 1. The handler and main -/

/-- Where main is: at the head of an iteration, handling a signal, or between the test and the
    growth. -/
inductive Phase where
  | idle : Phase
  | handling : Phase
  | growing : Phase
  deriving DecidableEq, Repr

/-- `stores` records each store of the handler: its index, and the size of the array then. -/
structure SignalQueue where
  signalCount : Nat
  sigPtr : Nat
  sizeofSignalArray : Nat
  phase : Phase
  stores : List (Nat × Nat)
  deriving DecidableEq, Repr

def queueInit : SignalQueue where
  signalCount := 0
  sigPtr := 0
  sizeofSignalArray := maxSignals
  phase := .idle
  stores := []

/-- A signal arrives; or main goes on. -/
inductive QueueAct where
  | arrive : QueueAct
  | proceed : QueueAct
  deriving DecidableEq, Repr

/-- `realloc` is taken to succeed. -/
def queueNext (q : SignalQueue) : QueueAct → SignalQueue
  | .arrive =>
      { q with
        signalCount := q.signalCount + 1
        stores := q.stores ++ [(q.signalCount, q.sizeofSignalArray)] }
  | .proceed =>
      match q.phase with
      | .idle => if q.sigPtr < q.signalCount then { q with phase := .handling } else q
      | .handling =>
          { q with
            sigPtr := q.sigPtr + 1
            phase := if q.signalCount = q.sizeofSignalArray - 10 then .growing else .idle }
      | .growing =>
          { q with sizeofSignalArray := q.sizeofSignalArray + maxSignals, phase := .idle }

/-- Every store was inside the array. -/
def InBounds (q : SignalQueue) : Prop := ∀ p ∈ q.stores, p.1 < p.2

/-- A signal does not arrive at the count main has yet to test for; and at most ten arrive between
    the test and the growth. -/
def InTime (q : SignalQueue) : QueueAct → Prop
  | .arrive =>
      if q.phase = .growing then q.signalCount < q.sizeofSignalArray
      else q.signalCount ≠ q.sizeofSignalArray - 10
  | .proceed => True

instance (q : SignalQueue) (a : QueueAct) : Decidable (InTime q a) :=
  match a with
  | .arrive => inferInstanceAs (Decidable (if q.phase = .growing then
      q.signalCount < q.sizeofSignalArray else q.signalCount ≠ q.sizeofSignalArray - 10))
  | .proceed => instDecidableTrue

/-! ## 2. The event loop is such a run -/

/-- What the queue and the event loop have in common. -/
def QueueOf (l : ExchangeLoop) (q : SignalQueue) : Prop :=
  q.signalCount = l.signalArray.length ∧ q.sigPtr = l.sigPtr ∧
    q.sizeofSignalArray = l.sizeofSignalArray ∧ q.phase = .idle

theorem queueOf_arrive {l : ExchangeLoop} {q : SignalQueue} (h : QueueOf l q) (t : Nat) :
    ∃ acts, QueueOf (sigHandler l t) (run queueNext q acts) := by
  unfold sigHandler
  split
  · exact ⟨[], h⟩
  · refine ⟨[.arrive], ?_, h.2.1, h.2.2.1, h.2.2.2⟩
    show q.signalCount + 1 = _
    rw [h.1]
    simp

theorem queueOf_handle (fee : Int → Int) {l : ExchangeLoop} {q : SignalQueue} (h : QueueOf l q)
    (n : Nat) : ∃ acts, QueueOf (handleSignal fee l n) (run queueNext q acts) := by
  unfold handleSignal
  split
  · exact ⟨[], h⟩
  · rename_i t pid hnext
    split
    · exact ⟨[], h⟩
    · rename_i bytes _
      obtain ⟨hcount, hptr, hsize, hphase⟩ := h
      have hlt : l.sigPtr < l.signalArray.length := by
        unfold nextSignal at hnext
        split at hnext
        · cases hnext
        · obtain ⟨p, hp, _⟩ := Option.bind_eq_some_iff.mp hnext
          exact (List.getElem?_eq_some_iff.mp hp).1
      have htwo : run queueNext q [.proceed, .proceed] =
          { q with
            sigPtr := q.sigPtr + 1
            phase := if q.signalCount = q.sizeofSignalArray - 10 then .growing else .idle } := by
        simp only [run, List.foldl_cons, List.foldl_nil, queueNext, hphase,
          if_pos (by omega : q.sigPtr < q.signalCount)]
      by_cases hfull : q.signalCount = q.sizeofSignalArray - 10
      · rw [if_pos hfull] at htwo
        refine ⟨[.proceed, .proceed] ++ [.proceed], ?_⟩
        rw [run_append, htwo]
        refine ⟨hcount, congrArg (· + 1) hptr, ?_, rfl⟩
        show q.sizeofSignalArray + maxSignals = if _ then _ else _
        rw [if_pos (by omega), hsize]
      · rw [if_neg hfull] at htwo
        refine ⟨[.proceed, .proceed], ?_⟩
        rw [htwo]
        refine ⟨hcount, congrArg (· + 1) hptr, ?_, rfl⟩
        show q.sizeofSignalArray = if _ then _ else _
        rw [if_neg (by omega), hsize]

/-- **The signals of the event loop**: what it has counted, handled and made room for is what a
    run of the queue leads to. -/
theorem loop_signals (fee : Int → Int) (products : List Word) (pids : List Nat)
    (marketArgv : List Word) (bufferRead : List Char) (acts : List LoopAct) :
    ∃ qs, QueueOf (run (loopNext fee) (exchangeLoopInit products pids marketArgv bufferRead) acts)
      (run queueNext queueInit qs) := by
  refine run_inv (I := fun l : ExchangeLoop => ∃ qs, QueueOf l (run queueNext queueInit qs))
    (fun l a hl => ?_) acts ⟨[], rfl, rfl, rfl, rfl⟩
  obtain ⟨qs, hq⟩ := hl
  have hstep : ∀ l', (∃ as, QueueOf l' (run queueNext (run queueNext queueInit qs) as)) →
      ∃ qs', QueueOf l' (run queueNext queueInit qs') := by
    intro l' h
    obtain ⟨as, has⟩ := h
    exact ⟨qs ++ as, by rw [run_append]; exact has⟩
  cases a with
  | write t m => exact ⟨qs, hq⟩
  | signal t => exact hstep _ (queueOf_arrive hq t)
  | close t => exact ⟨qs, hq⟩
  | handle n => exact hstep _ (queueOf_handle fee hq n)
  | poll pid exited => exact ⟨qs, hq⟩

/-! ## 3. In time -/

/-- There is room: ten entries are left, or main is about to grow the array. -/
structure Roomy (q : SignalQueue) : Prop where
  size : maxSignals ≤ q.sizeofSignalArray
  bounds : InBounds q
  room : q.phase ≠ .growing → q.signalCount ≤ q.sizeofSignalArray - 10
  growing : q.phase = .growing → q.signalCount ≤ q.sizeofSignalArray

theorem inBounds_arrive {q : SignalQueue} :
    InBounds (queueNext q .arrive) ↔ InBounds q ∧ q.signalCount < q.sizeofSignalArray := by
  unfold InBounds
  show (∀ p ∈ q.stores ++ [_], _) ↔ _
  rw [List.forall_mem_append, List.forall_mem_singleton]

theorem proceed_stores (q : SignalQueue) : (queueNext q .proceed).stores = q.stores := by
  unfold queueNext
  simp only
  split
  · split <;> rfl
  · rfl
  · rfl

/-- **A signal in time finds room, and leaves some.** -/
theorem roomy_next {q : SignalQueue} (h : Roomy q) (a : QueueAct) (ht : InTime q a) :
    Roomy (queueNext q a) := by
  obtain ⟨hsize, hbounds, hroom, hgrowing⟩ := h
  have hmax : maxSignals = 100 := rfl
  cases a with
  | arrive =>
      by_cases hp : q.phase = .growing
      · have hlt : q.signalCount < q.sizeofSignalArray := by
          simpa only [InTime, if_pos hp] using ht
        exact ⟨hsize, inBounds_arrive.mpr ⟨hbounds, hlt⟩, fun hne => absurd hp hne, fun _ => hlt⟩
      · have hne : q.signalCount ≠ q.sizeofSignalArray - 10 := by
          simpa only [InTime, if_neg hp] using ht
        have hle := hroom hp
        refine ⟨hsize, inBounds_arrive.mpr ⟨hbounds, by omega⟩, fun _ => ?_, fun hg => absurd hg hp⟩
        show q.signalCount + 1 ≤ q.sizeofSignalArray - 10
        omega
  | proceed =>
      have hb : InBounds (queueNext q .proceed) := by
        unfold InBounds
        rw [proceed_stores]
        exact hbounds
      cases hp : q.phase with
      | idle =>
          have hle := hroom (by rw [hp]; decide)
          simp only [queueNext, hp] at hb ⊢
          split
          · exact ⟨hsize, hbounds, fun _ => hle, fun hg => by cases hg⟩
          · exact ⟨hsize, hbounds, hroom, hgrowing⟩
      | handling =>
          have hle := hroom (by rw [hp]; decide)
          simp only [queueNext, hp] at hb ⊢
          refine ⟨hsize, hb, fun _ => hle, fun _ => ?_⟩
          show q.signalCount ≤ q.sizeofSignalArray
          omega
      | growing =>
          have hle := hgrowing hp
          simp only [queueNext, hp] at hb ⊢
          refine ⟨by show _ ≤ q.sizeofSignalArray + maxSignals; omega, hb, fun _ => ?_, fun hg => by cases hg⟩
          show q.signalCount ≤ q.sizeofSignalArray + maxSignals - 10
          omega

/-! ## 4. Too late -/

/-- The test has been missed: the array will not grow any more, and fewer than ten entries of it
    are left; or a store was out of bounds. -/
structure Missed (q : SignalQueue) : Prop where
  size : maxSignals ≤ q.sizeofSignalArray
  phase : q.phase ≠ .growing
  few : q.sizeofSignalArray < q.signalCount + 10
  out : q.sizeofSignalArray < q.signalCount → ¬ InBounds q

/-- **Once missed, every signal comes closer to the end of the array.** -/
theorem missed_next {q : SignalQueue} (h : Missed q) (a : QueueAct) :
    Missed (queueNext q a) ∧
      (queueNext q a).sizeofSignalArray = q.sizeofSignalArray ∧
      (queueNext q a).signalCount = q.signalCount + (if a = .arrive then 1 else 0) := by
  obtain ⟨hsize, hphase, hfew, hout⟩ := h
  have hmax : maxSignals = 100 := rfl
  cases a with
  | arrive =>
      refine ⟨⟨hsize, hphase, ?_, fun hlt => ?_⟩, rfl, rfl⟩
      · show q.sizeofSignalArray < q.signalCount + 1 + 10
        omega
      · have hle : q.sizeofSignalArray ≤ q.signalCount := Nat.lt_succ_iff.mp hlt
        intro hb
        have := (inBounds_arrive.mp hb).2
        omega
  | proceed =>
      have hb : InBounds (queueNext q .proceed) ↔ InBounds q := by
        unfold InBounds
        rw [proceed_stores]
      cases hp : q.phase with
      | idle =>
          simp only [queueNext, hp] at hb ⊢
          split
          · exact ⟨⟨hsize, Phase.noConfusion, hfew, hout⟩, rfl, rfl⟩
          · exact ⟨⟨hsize, hphase, hfew, hout⟩, rfl, rfl⟩
      | handling =>
          have hne : ¬ q.signalCount = q.sizeofSignalArray - 10 := by omega
          simp only [queueNext, hp, if_neg hne] at hb ⊢
          exact ⟨⟨hsize, Phase.noConfusion, hfew, fun hlt hi => hout hlt (hb.mp hi)⟩, trivial, rfl⟩
      | growing => exact absurd hp hphase

theorem missed_run (acts : List QueueAct) : ∀ {q : SignalQueue}, Missed q →
    Missed (run queueNext q acts) ∧
      (run queueNext q acts).sizeofSignalArray = q.sizeofSignalArray ∧
      (run queueNext q acts).signalCount = q.signalCount + acts.count .arrive := by
  induction acts with
  | nil => exact fun h => ⟨h, rfl, rfl⟩
  | cons a acts ih =>
      intro q h
      obtain ⟨h₁, hs₁, hc₁⟩ := missed_next h a
      obtain ⟨h₂, hs₂, hc₂⟩ := ih h₁
      refine ⟨h₂, hs₂.trans hs₁, ?_⟩
      show (run queueNext (queueNext q a) acts).signalCount = _
      rw [hc₂, hc₁, List.count_cons]
      cases a with
      | arrive => simp only [beq_self_eq_true, if_true]; omega
      | proceed => simp

/-- A store out of bounds stays on record. -/
theorem out_run (acts : List QueueAct) : ∀ {q : SignalQueue}, ¬ InBounds q →
    ¬ InBounds (run queueNext q acts) := by
  induction acts with
  | nil => exact fun h => h
  | cons a acts ih =>
      intro q h
      refine ih fun hb => h ?_
      cases a with
      | arrive => exact (inBounds_arrive.mp hb).1
      | proceed =>
          unfold InBounds at hb
          rw [proceed_stores] at hb
          exact hb

/-- A signal that is too late was out of bounds, or the test is missed. -/
theorem roomy_late {q : SignalQueue} (h : Roomy q) {a : QueueAct} (ht : ¬ InTime q a) :
    ¬ InBounds (queueNext q a) ∨ Missed (queueNext q a) := by
  have hmax : maxSignals = 100 := rfl
  have hsize := h.size
  cases a with
  | proceed => exact absurd trivial ht
  | arrive =>
      by_cases hp : q.phase = .growing
      · simp only [InTime, if_pos hp] at ht
        exact Or.inl fun hb => ht (inBounds_arrive.mp hb).2
      · simp only [InTime, if_neg hp, ne_eq, Decidable.not_not] at ht
        refine Or.inr ⟨hsize, hp, ?_, fun hlt => ?_⟩
        · show q.sizeofSignalArray < q.signalCount + 1 + 10
          omega
        · have : q.sizeofSignalArray < q.signalCount + 1 := hlt
          omega

theorem late_run (acts : List QueueAct) : ∀ {q : SignalQueue}, Roomy q →
    ¬ AllSteps queueNext InTime q acts →
    ¬ InBounds (run queueNext q acts) ∨ Missed (run queueNext q acts) := by
  induction acts with
  | nil => exact fun _ h => absurd trivial h
  | cons a acts ih =>
      intro q hq h
      by_cases ht : InTime q a
      · exact ih (roomy_next hq a ht) fun hrest => h ⟨ht, hrest⟩
      · rcases roomy_late hq ht with hout | hmissed
        · exact Or.inl (out_run acts hout)
        · exact Or.inr (missed_run acts hmissed).1

/-! ## 5. Every interleaving -/

theorem roomy_init : Roomy queueInit :=
  ⟨Nat.le_refl _, fun _ hp => absurd hp List.not_mem_nil, fun _ => Nat.zero_le _,
    fun _ => Nat.zero_le _⟩

/-- **No store is out of bounds in a run whose signals all arrive in time; and once one does not,
    any ten further signals lead to a store that is.** -/
theorem signals_in_bounds (acts : List QueueAct) :
    (AllSteps queueNext InTime queueInit acts → Always queueNext InBounds queueInit acts) ∧
    (¬ AllSteps queueNext InTime queueInit acts → ∀ more : List QueueAct,
      10 ≤ more.count .arrive → ¬ InBounds (run queueNext queueInit (acts ++ more))) := by
  refine ⟨fun h => ?_, fun h more hten => ?_⟩
  · exact always_mono (P := Roomy) (fun q hq => hq.bounds) acts
      (always_of_allSteps (fun q a hq ht => roomy_next hq a ht) acts roomy_init h)
  · rw [run_append]
    rcases late_run acts roomy_init h with hout | hmissed
    · exact out_run more hout
    · obtain ⟨hm, hsize, hcount⟩ := missed_run more hmissed
      refine hm.out ?_
      have := hmissed.few
      omega

/-- Two hundred signals, each handled before the next arrives. -/
theorem signals_in_bounds_served :
    Always queueNext InBounds queueInit
      (List.replicate 200 [.arrive, .proceed, .proceed, .proceed]).flatten :=
  (signals_in_bounds _).1 (by decide +kernel)

/-- A hundred and one signals before main gets to its first iteration. -/
theorem signals_overrun :
    (queueInit.sizeofSignalArray, (run queueNext queueInit (List.replicate 101 .arrive)).stores.getLast?) =
      (100, some (100, 100)) ∧
    ¬ Always queueNext InBounds queueInit (List.replicate 101 .arrive) := by
  have hlast : (run queueNext queueInit (List.replicate 101 .arrive)).stores.getLast? =
      some (100, 100) := by decide +kernel
  refine ⟨by rw [hlast]; rfl, fun h => ?_⟩
  have hb := always_last _ h
  have := hb (100, 100) (List.mem_of_getLast? hlast)
  omega

end SysProg.Pe
