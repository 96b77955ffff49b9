/-
  File:      SysProg/Pe/Startup.lean
  Subject:   THE START OF THE EXCHANGE (main of pe_exchange.c, the front of
             main of pe_trader.c): main starts the traders one by one, and
             opens both FIFOs of each before it starts the next.

  `open` of a FIFO waits until its other end is opened too. It takes two
  moves here: a process comes to the call, and leaves it once the other one
  has come. Any process may be the next to move.

  A trader is any program; what counts of it are the calls it makes before
  its event loop. SIGUSR1 ends a process that has not installed a handler.

  * `move_cases`, `exchange_cases` -- what a move can be, of either side;
  * `StartupOk` -- the invariant: how far main is with a trader says what has
    happened to its FIFOs;
  * `startup_safe` -- no trader is told that the market is open before all
    are connected, and none is ended by the signal if it installs its handler
    before it opens `trader2exc`, in every interleaving.

  That the start completes is in StartupRest.lean.
-/
import SysProg.Lib.Run

namespace SysProg.Pe

open Lib

/-! ## 1. The processes -/

/-- What a trader does before its event loop. -/
inductive TraderCall where
  | sigaction : TraderCall
  /-- `open(exc2trader, O_RDONLY)` -/
  | openRead : TraderCall
  /-- `open(trader2exc, O_WRONLY)` -/
  | openWrite : TraderCall
  deriving DecidableEq, Repr

/-- main of pe_trader.c. -/
def peTraderCalls : List TraderCall := [.sigaction, .openRead, .openWrite]

/-- A trader and its two FIFOs: the calls it has not made yet, and who has come to the ends of
    `exc2trader` (`traderReads`, `excWrites`) and of `trader2exc` (`traderWrites`, `excReads`). -/
structure Party where
  left : List TraderCall
  started : Bool
  traderReads : Bool
  excWrites : Bool
  traderWrites : Bool
  excReads : Bool
  handler : Bool
  /-- MARKET OPEN has been written. -/
  marketOpen : Bool
  /-- The signals main has sent it, one that ends it included. -/
  signals : Nat
  /-- The signal has ended the process. -/
  killed : Bool
  deriving DecidableEq, Repr

/-- Where main is: in the loop that starts trader `i`, in the one that tells it that the market is
    open, or behind both. -/
inductive Control where
  | fork (i : Nat) : Control
  | openWrite (i : Nat) : Control
  | openRead (i : Nat) : Control
  | write (i : Nat) : Control
  | kill (i : Nat) : Control
  | eventLoop : Control
  deriving DecidableEq, Repr

structure Startup where
  control : Control
  parties : List Party
  deriving DecidableEq, Repr

/-- The head of the loop over `write` and `kill`. -/
def announceFrom (n i : Nat) : Control := if i < n then .write i else .eventLoop

/-- The head of the loop that starts the traders. -/
def connectFrom (n i : Nat) : Control := if i < n then .fork i else announceFrom n 0

def newParty (calls : List TraderCall) : Party where
  left := calls
  started := false
  traderReads := false
  excWrites := false
  traderWrites := false
  excReads := false
  handler := false
  marketOpen := false
  signals := 0
  killed := false

def startupInit (programs : List (List TraderCall)) : Startup where
  control := connectFrom programs.length 0
  parties := programs.map newParty

/-! ## 2. The moves -/

/-- A trader moves: it makes its next call, comes to an `open`, or leaves one. -/
def Party.move (p : Party) : Party :=
  if !p.started || p.killed then p
  else
    match p.left with
    | [] => p
    | .sigaction :: rest => { p with left := rest, handler := true }
    | .openRead :: rest =>
        if !p.traderReads then { p with traderReads := true }
        else if p.excWrites then { p with left := rest }
        else p
    | .openWrite :: rest =>
        if !p.traderWrites then { p with traderWrites := true }
        else if p.excReads then { p with left := rest }
        else p

/-- SIGUSR1. -/
def Party.signal (p : Party) : Party :=
  if p.handler then { p with signals := p.signals + 1 }
  else { p with signals := p.signals + 1, killed := true }

/-- main moves; the parties change at one position. -/
def Startup.on (s : Startup) (i : Nat) (control : Control) (f : Party → Party) : Startup :=
  { control := control, parties := s.parties.modify i f }

def moveExchange (s : Startup) : Startup :=
  match s.control with
  | .fork i => s.on i (.openWrite i) fun p => { p with started := true }
  | .openWrite i =>
      match s.parties[i]? with
      | none => s
      | some p =>
          if !p.excWrites then s.on i (.openWrite i) fun p => { p with excWrites := true }
          else if p.traderReads then { s with control := .openRead i }
          else s
  | .openRead i =>
      match s.parties[i]? with
      | none => s
      | some p =>
          if !p.excReads then s.on i (.openRead i) fun p => { p with excReads := true }
          else if p.traderWrites then
            { s with control := connectFrom s.parties.length (i + 1) }
          else s
  | .write i => s.on i (.kill i) fun p => { p with marketOpen := true }
  | .kill i => s.on i (announceFrom s.parties.length (i + 1)) Party.signal
  | .eventLoop => s

inductive Mover where
  | exchange : Mover
  | trader (i : Nat) : Mover
  deriving DecidableEq, Repr

def startupNext (s : Startup) : Mover → Startup
  | .exchange => moveExchange s
  | .trader i => { s with parties := s.parties.modify i Party.move }

/-- The program opens both FIFOs, and `exc2trader` first. -/
def Connects (calls : List TraderCall) : Prop :=
  ∃ a b, calls = a ++ .openRead :: b ∧ .openWrite ∉ a ∧ .openWrite ∈ b

/-- The program has installed its handler when it comes to `trader2exc`. -/
def InstallsHandler (calls : List TraderCall) : Prop :=
  ∀ a b, calls = a ++ .openWrite :: b → .sigaction ∈ a

/-! ## 3. What a move can be -/

/-- A move of a trader. -/
inductive PartyMove (p : Party) : Party → Prop where
  | sigaction {rest : List TraderCall} (h : p.left = .sigaction :: rest) :
      PartyMove p { p with left := rest, handler := true }
  | comeRead {rest : List TraderCall} (h : p.left = .openRead :: rest)
      (hnew : p.traderReads = false) : PartyMove p { p with traderReads := true }
  | leaveRead {rest : List TraderCall} (h : p.left = .openRead :: rest)
      (hcame : p.traderReads = true) (hexc : p.excWrites = true) :
      PartyMove p { p with left := rest }
  | comeWrite {rest : List TraderCall} (h : p.left = .openWrite :: rest)
      (hnew : p.traderWrites = false) : PartyMove p { p with traderWrites := true }
  | leaveWrite {rest : List TraderCall} (h : p.left = .openWrite :: rest)
      (hcame : p.traderWrites = true) (hexc : p.excReads = true) :
      PartyMove p { p with left := rest }

/-- The reasons why a trader does not move. -/
inductive PartyWaits (p : Party) : Prop where
  | notStarted (h : p.started = false)
  | killed (h : p.killed = true)
  | done (h : p.left = [])
  | read {rest : List TraderCall} (h : p.left = .openRead :: rest) (hcame : p.traderReads = true)
      (hexc : p.excWrites = false)
  | write {rest : List TraderCall} (h : p.left = .openWrite :: rest)
      (hcame : p.traderWrites = true) (hexc : p.excReads = false)

theorem move_cases (p : Party) : PartyWaits p ∧ p.move = p ∨ PartyMove p p.move := by
  unfold Party.move
  split
  · rename_i h
    rw [Bool.or_eq_true, Bool.not_eq_true'] at h
    rcases h with h | h
    · exact Or.inl ⟨.notStarted h, rfl⟩
    · exact Or.inl ⟨.killed h, rfl⟩
  split
  · rename_i hl
    exact Or.inl ⟨.done hl, rfl⟩
  · rename_i rest hl
    exact Or.inr (.sigaction hl)
  · rename_i rest hl
    split
    · rename_i hnew
      exact Or.inr (.comeRead hl (by simpa using hnew))
    · rename_i hcame
      have hcame' : p.traderReads = true := by simpa using hcame
      split
      · rename_i hexc
        exact Or.inr (.leaveRead hl hcame' hexc)
      · rename_i hexc
        exact Or.inl ⟨.read hl hcame' (by simpa using hexc), rfl⟩
  · rename_i rest hl
    split
    · rename_i hnew
      exact Or.inr (.comeWrite hl (by simpa using hnew))
    · rename_i hcame
      have hcame' : p.traderWrites = true := by simpa using hcame
      split
      · rename_i hexc
        exact Or.inr (.leaveWrite hl hcame' hexc)
      · rename_i hexc
        exact Or.inl ⟨.write hl hcame' (by simpa using hexc), rfl⟩

/-- A move of main, where trader `i` is `p` before it and as given after it. -/
inductive ExchangeMove (n i : Nat) (p : Party) : Control → Control → Party → Prop where
  | fork : ExchangeMove n i p (.fork i) (.openWrite i) { p with started := true }
  | comeWrite (hnew : p.excWrites = false) :
      ExchangeMove n i p (.openWrite i) (.openWrite i) { p with excWrites := true }
  | leaveWrite (hcame : p.excWrites = true) (htrader : p.traderReads = true) :
      ExchangeMove n i p (.openWrite i) (.openRead i) p
  | comeRead (hnew : p.excReads = false) :
      ExchangeMove n i p (.openRead i) (.openRead i) { p with excReads := true }
  | leaveRead (hcame : p.excReads = true) (htrader : p.traderWrites = true) :
      ExchangeMove n i p (.openRead i) (connectFrom n (i + 1)) p
  | write : ExchangeMove n i p (.write i) (.kill i) { p with marketOpen := true }
  | kill : ExchangeMove n i p (.kill i) (announceFrom n (i + 1)) p.signal

/-- The reasons why main does not move. -/
inductive ExchangeWaits (s : Startup) : Prop where
  | eventLoop (h : s.control = .eventLoop)
  | openWrite {i : Nat} {p : Party} (h : s.control = .openWrite i) (hp : s.parties[i]? = some p)
      (htrader : p.traderReads = false)
  | openRead {i : Nat} {p : Party} (h : s.control = .openRead i) (hp : s.parties[i]? = some p)
      (htrader : p.traderWrites = false)

/-- The trader main is at exists. -/
def Control.Within (n : Nat) : Control → Prop
  | .fork i | .openWrite i | .openRead i | .write i | .kill i => i < n
  | .eventLoop => True

/-- Trader `i` is changed. -/
theorem on_eq {s : Startup} {i : Nat} {p : Party} (hp : s.parties[i]? = some p) (c : Control)
    (f : Party → Party) : s.on i c f = { control := c, parties := s.parties.set i (f p) } := by
  rw [Startup.on, modify_eq_set_of_some f hp]

theorem exchange_cases {s : Startup} (hin : s.control.Within s.parties.length) :
    ExchangeWaits s ∧ moveExchange s = s ∨
      ∃ i p c p', s.parties[i]? = some p ∧
        ExchangeMove s.parties.length i p s.control c p' ∧
        moveExchange s = { control := c, parties := s.parties.set i p' } := by
  have hstay : ∀ {i : Nat} {p : Party} (c : Control), s.parties[i]? = some p →
      { s with control := c } = ({ control := c, parties := s.parties.set i p } : Startup) := by
    intro i p c hp
    obtain ⟨hi, rfl⟩ := List.getElem?_eq_some_iff.mp hp
    rw [List.set_getElem_self]
  unfold moveExchange
  split
  · rename_i i hc
    rw [hc] at hin ⊢
    have hp := List.getElem?_eq_getElem hin
    exact Or.inr ⟨i, _, _, _, hp, .fork, on_eq hp _ _⟩
  · rename_i i hc
    rw [hc] at hin ⊢
    split
    · rename_i hp
      rw [List.getElem?_eq_getElem hin] at hp
      cases hp
    rename_i p hp
    split
    · rename_i hnew
      exact Or.inr ⟨i, p, _, _, hp, .comeWrite (by simpa using hnew), on_eq hp _ _⟩
    · rename_i hcame
      split
      · rename_i hr
        exact Or.inr ⟨i, p, _, _, hp, .leaveWrite (by simpa using hcame) hr, hstay _ hp⟩
      · rename_i hr
        exact Or.inl ⟨.openWrite hc hp (by simpa using hr), rfl⟩
  · rename_i i hc
    rw [hc] at hin ⊢
    split
    · rename_i hp
      rw [List.getElem?_eq_getElem hin] at hp
      cases hp
    rename_i p hp
    split
    · rename_i hnew
      exact Or.inr ⟨i, p, _, _, hp, .comeRead (by simpa using hnew), on_eq hp _ _⟩
    · rename_i hcame
      split
      · rename_i hw
        exact Or.inr ⟨i, p, _, _, hp, .leaveRead (by simpa using hcame) hw, hstay _ hp⟩
      · rename_i hw
        exact Or.inl ⟨.openRead hc hp (by simpa using hw), rfl⟩
  · rename_i i hc
    rw [hc] at hin ⊢
    have hp := List.getElem?_eq_getElem hin
    exact Or.inr ⟨i, _, _, _, hp, .write, on_eq hp _ _⟩
  · rename_i i hc
    rw [hc] at hin ⊢
    have hp := List.getElem?_eq_getElem hin
    exact Or.inr ⟨i, _, _, _, hp, .kill, on_eq hp _ _⟩
  · rename_i hc
    exact Or.inl ⟨.eventLoop hc, rfl⟩

/-! ## 4. One party -/

/-- What the calls a trader has made say about its FIFOs and its handler. -/
structure Consistent (calls : List TraderCall) (p : Party) : Prop where
  made : ∃ made, calls = made ++ p.left ∧ (.openRead ∈ made → p.traderReads = true) ∧
    (.openWrite ∈ made → p.traderWrites = true ∧ p.excReads = true) ∧
    (.sigaction ∈ made → p.handler = true)
  first : p.traderReads = true → ∃ a b, calls = a ++ .openRead :: b ∧ .openWrite ∉ a
  second : p.traderWrites = true → .openWrite ∈ calls
  handler : p.traderWrites = true → InstallsHandler calls → p.handler = true
  reads : p.excReads = true → p.traderReads = true

theorem consistent_new (calls : List TraderCall) : Consistent calls (newParty calls) where
  made := ⟨[], rfl, by simp, by simp, by simp⟩
  first := by simp [newParty]
  second := by simp [newParty]
  handler := by simp [newParty]
  reads := by simp [newParty]

theorem consistent_move {calls : List TraderCall} {p p' : Party} (h : Consistent calls p)
    (hm : PartyMove p p') : Consistent calls p' := by
  obtain ⟨made, hcalls, hread, hwrite, hsig⟩ := h.made
  cases hm with
  | sigaction hl =>
      rw [hl] at hcalls
      refine ⟨⟨made ++ [.sigaction], by simpa using hcalls, ?_, ?_, fun _ => rfl⟩, h.first,
        h.second, fun _ _ => rfl, h.reads⟩
      · simpa using hread
      · simpa using hwrite
  | comeRead hl hnew =>
      rename_i rest
      refine ⟨⟨made, hcalls, fun _ => rfl, hwrite, hsig⟩, fun _ => ?_, h.second, h.handler,
        fun _ => rfl⟩
      -- it has not left `trader2exc`, as main has not come to it
      refine ⟨made, rest, by rw [hcalls, hl], fun hw => ?_⟩
      rw [h.reads (hwrite hw).2] at hnew
      cases hnew
  | leaveRead hl hcame _ =>
      rw [hl] at hcalls
      refine ⟨⟨made ++ [.openRead], by simpa using hcalls, fun _ => hcame, ?_, ?_⟩, h.first,
        h.second, h.handler, h.reads⟩
      · simpa using hwrite
      · simpa using hsig
  | comeWrite hl hnew =>
      rename_i rest
      rw [hl] at hcalls
      refine ⟨⟨made, by rw [hcalls, hl], hread, fun hw => ⟨rfl, (hwrite hw).2⟩, hsig⟩, h.first,
        fun _ => ?_, fun _ hinst => hsig (hinst made rest hcalls), h.reads⟩
      rw [hcalls]
      simp
  | leaveWrite hl hcame hexc =>
      rw [hl] at hcalls
      refine ⟨⟨made ++ [.openWrite], by simpa using hcalls, ?_, fun _ => ⟨hcame, hexc⟩, ?_⟩,
        h.first, h.second, h.handler, h.reads⟩
      · simpa using hread
      · simpa using hsig

/-! ## 5. How far main is with a trader -/

inductive Stage where
  | idle | writing | reading | connected | told | signalled
  deriving DecidableEq, Repr

/-- Where main is with the trader at position `j`. -/
def stageAt (c : Control) (j : Nat) : Stage :=
  match c with
  | .fork i => if j < i then .connected else .idle
  | .openWrite i => if j < i then .connected else if j = i then .writing else .idle
  | .openRead i => if j < i then .connected else if j = i then .reading else .idle
  | .write i => if j < i then .signalled else .connected
  | .kill i => if j < i then .signalled else if j = i then .told else .connected
  | .eventLoop => .signalled

section Self

variable (i : Nat)

@[simp] theorem stageAt_fork : stageAt (.fork i) i = .idle := if_neg (Nat.lt_irrefl i)

@[simp] theorem stageAt_openWrite : stageAt (.openWrite i) i = .writing :=
  (if_neg (Nat.lt_irrefl i)).trans (if_pos rfl)

@[simp] theorem stageAt_openRead : stageAt (.openRead i) i = .reading :=
  (if_neg (Nat.lt_irrefl i)).trans (if_pos rfl)

@[simp] theorem stageAt_write : stageAt (.write i) i = .connected := if_neg (Nat.lt_irrefl i)

@[simp] theorem stageAt_kill : stageAt (.kill i) i = .told :=
  (if_neg (Nat.lt_irrefl i)).trans (if_pos rfl)

end Self

/-- Both processes have come to both FIFOs. -/
def Party.Connected (p : Party) : Prop :=
  p.traderReads = true ∧ p.excWrites = true ∧ p.traderWrites = true ∧ p.excReads = true

/-- It has been told nothing. -/
def Party.Quiet (p : Party) : Prop := p.marketOpen = false ∧ p.signals = 0 ∧ p.killed = false

/-- What main knows of a trader at a stage. -/
def AtStage (p : Party) : Stage → Prop
  | .idle => p.excReads = false ∧ p.Quiet
  | .writing => p.started = true ∧ p.excReads = false ∧ p.Quiet
  | .reading => p.started = true ∧ p.traderReads = true ∧ p.excWrites = true ∧ p.Quiet
  | .connected => p.Connected ∧ p.Quiet
  | .told => p.Connected ∧ p.marketOpen = true ∧ p.signals = 0 ∧ p.killed = false
  | .signalled => p.Connected ∧ p.marketOpen = true ∧ p.signals = 1

/-- What main writes is not changed by a trader. -/
theorem partyMove_main {p p' : Party} (hm : PartyMove p p') :
    p'.started = p.started ∧ p'.excWrites = p.excWrites ∧ p'.excReads = p.excReads ∧
      p'.marketOpen = p.marketOpen ∧ p'.signals = p.signals ∧ p'.killed = p.killed := by
  cases hm <;> exact ⟨rfl, rfl, rfl, rfl, rfl, rfl⟩

theorem atStage_move {p p' : Party} {st : Stage} (h : AtStage p st) (hm : PartyMove p p') :
    AtStage p' st := by
  have hreads : p.traderReads = true → p'.traderReads = true := by
    cases hm <;> simp
  have hwrites : p.traderWrites = true → p'.traderWrites = true := by
    cases hm <;> simp
  obtain ⟨h1, h2, h3, h4, h5, h6⟩ := partyMove_main hm
  unfold AtStage Party.Connected Party.Quiet at *
  rw [h1, h2, h3, h4, h5, h6]
  cases st with
  | idle => exact h
  | writing => exact h
  | reading => exact ⟨h.1, hreads h.2.1, h.2.2⟩
  | connected => exact ⟨⟨hreads h.1.1, h.1.2.1, hwrites h.1.2.2.1, h.1.2.2.2⟩, h.2⟩
  | told => exact ⟨⟨hreads h.1.1, h.1.2.1, hwrites h.1.2.2.1, h.1.2.2.2⟩, h.2⟩
  | signalled => exact ⟨⟨hreads h.1.1, h.1.2.1, hwrites h.1.2.2.1, h.1.2.2.2⟩, h.2⟩

/-- A trader that has been told nothing, and one that has been told that the market is open. -/
theorem atStage_quiet {p : Party} {st : Stage} (h : AtStage p st) :
    p.Quiet ∨ (st = .told ∨ st = .signalled) ∧ p.marketOpen = true := by
  cases st with
  | idle => exact Or.inl h.2
  | writing => exact Or.inl h.2.2
  | reading => exact Or.inl h.2.2.2
  | connected => exact Or.inl h.2
  | told => exact Or.inr ⟨Or.inl rfl, h.2.1⟩
  | signalled => exact Or.inr ⟨Or.inr rfl, h.2.1⟩

/-- The signals of a trader, and what a trader that was ended by one knows. -/
theorem atStage_signals {p : Party} {st : Stage} (h : AtStage p st) :
    p.signals ≤ 1 ∧ (p.signals = 1 → p.marketOpen = true) ∧ (p.killed = true → p.signals = 1) := by
  rcases atStage_quiet h with hquiet | ⟨hst, hopen⟩
  · rw [hquiet.2.1, hquiet.2.2]
    exact ⟨Nat.zero_le 1, fun e => absurd e (by decide), fun e => absurd e (by decide)⟩
  · rcases hst with rfl | rfl
    · rw [h.2.2.1, h.2.2.2]
      exact ⟨Nat.zero_le 1, fun _ => hopen, fun e => absurd e (by decide)⟩
    · exact ⟨Nat.le_of_eq h.2.2, fun _ => hopen, fun _ => h.2.2⟩

/-- If main has told one trader, it has connected all of them. -/
theorem stageAt_told {c : Control} {j : Nat} (h : stageAt c j = .told ∨ stageAt c j = .signalled)
    {p : Party} {k : Nat} (hp : AtStage p (stageAt c k)) : p.Connected := by
  have hlater : stageAt c k = .connected ∨ stageAt c k = .told ∨ stageAt c k = .signalled := by
    cases c with
    | fork i =>
        simp only [stageAt] at h
        split at h <;> simp at h
    | openWrite i =>
        simp only [stageAt] at h
        split at h
        · simp at h
        · split at h <;> simp at h
    | openRead i =>
        simp only [stageAt] at h
        split at h
        · simp at h
        · split at h <;> simp at h
    | write i =>
        simp only [stageAt]
        split <;> simp
    | kill i =>
        simp only [stageAt]
        split
        · simp
        · split <;> simp
    | eventLoop => simp [stageAt]
  rcases hlater with hst | hst | hst
  · rw [hst] at hp
    exact hp.1
  · rw [hst] at hp
    exact hp.1
  · rw [hst] at hp
    exact hp.1

/-! ## 6. The invariant -/

/-- **The invariant of the start.** -/
structure StartupOk (programs : List (List TraderCall)) (s : Startup) : Prop where
  length : s.parties.length = programs.length
  within : s.control.Within programs.length
  party : ∀ j p calls, s.parties[j]? = some p → programs[j]? = some calls →
    Consistent calls p ∧ AtStage p (stageAt s.control j) ∧
      (InstallsHandler calls → p.killed = false)

section Invariant

variable {programs : List (List TraderCall)} {s : Startup}

theorem connectFrom_within (n i : Nat) : (connectFrom n i).Within n := by
  unfold connectFrom announceFrom
  split
  · assumption
  · split
    · assumption
    · trivial

theorem announceFrom_within (n i : Nat) : (announceFrom n i).Within n := by
  unfold announceFrom
  split
  · assumption
  · trivial

/-- The stages behind the first loop: every trader is connected. -/
theorem stageAt_announceFrom {n j : Nat} (hj : j < n) (i : Nat) :
    stageAt (announceFrom n i) j = if j < i then .signalled else .connected := by
  unfold announceFrom
  by_cases hi : i < n
  · rw [if_pos hi]
    rfl
  · rw [if_neg hi, if_pos (by omega)]
    rfl

theorem stageAt_connectFrom {n j : Nat} (hj : j < n) {i : Nat} (hi : i < n) :
    stageAt (connectFrom n (i + 1)) j = if j ≤ i then .connected else .idle := by
  unfold connectFrom
  by_cases hn : i + 1 < n
  · rw [if_pos hn]
    simp only [stageAt, Nat.lt_succ_iff]
  · rw [if_neg hn, stageAt_announceFrom hj, if_neg (Nat.not_lt_zero j), if_pos (by omega)]

/-- A move of main is about one trader. -/
theorem exchangeMove_others {n i : Nat} {p p' : Party} {c c' : Control}
    (hm : ExchangeMove n i p c c' p') (hi : i < n) {j : Nat} (hj : j < n) (hne : j ≠ i) :
    stageAt c' j = stageAt c j := by
  cases hm with
  | fork => simp only [stageAt, if_neg hne]
  | comeWrite => rfl
  | leaveWrite => simp only [stageAt, if_neg hne]
  | comeRead => rfl
  | leaveRead =>
      rw [stageAt_connectFrom hj hi]
      simp only [stageAt, if_neg hne]
      exact if_congr (by omega) rfl rfl
  | write => simp only [stageAt, if_neg hne]
  | kill =>
      rw [stageAt_announceFrom hj]
      simp only [stageAt, if_neg hne]
      exact if_congr (by omega) rfl rfl

/-- What it does to that trader. -/
theorem exchangeMove_self {n i : Nat} {p p' : Party} {c c' : Control} {calls : List TraderCall}
    (hm : ExchangeMove n i p c c' p') (hi : i < n) (h : Consistent calls p)
    (hst : AtStage p (stageAt c i)) (hk : InstallsHandler calls → p.killed = false) :
    Consistent calls p' ∧ AtStage p' (stageAt c' i) ∧
      (InstallsHandler calls → p'.killed = false) := by
  cases hm with
  | fork =>
      rw [stageAt_fork] at hst
      rw [stageAt_openWrite]
      exact ⟨⟨h.made, h.first, h.second, h.handler, h.reads⟩, ⟨rfl, hst⟩, hk⟩
  | comeWrite =>
      rw [stageAt_openWrite] at hst ⊢
      exact ⟨⟨h.made, h.first, h.second, h.handler, h.reads⟩, hst, hk⟩
  | leaveWrite hcame htrader =>
      rw [stageAt_openWrite] at hst
      rw [stageAt_openRead]
      exact ⟨h, ⟨hst.1, htrader, hcame, hst.2.2⟩, hk⟩
  | comeRead =>
      rw [stageAt_openRead] at hst ⊢
      obtain ⟨made, hmade, hread, hwrite, hsig⟩ := h.made
      exact ⟨⟨⟨made, hmade, hread, fun hw => ⟨(hwrite hw).1, rfl⟩, hsig⟩, h.first, h.second,
        h.handler, fun _ => hst.2.1⟩, hst, hk⟩
  | leaveRead hcame htrader =>
      rw [stageAt_openRead] at hst
      rw [stageAt_connectFrom hi hi, if_pos (Nat.le_refl i)]
      exact ⟨h, ⟨⟨hst.2.1, hst.2.2.1, htrader, hcame⟩, hst.2.2.2⟩, hk⟩
  | write =>
      rw [stageAt_write] at hst
      rw [stageAt_kill]
      exact ⟨⟨h.made, h.first, h.second, h.handler, h.reads⟩, ⟨hst.1, rfl, hst.2.2⟩, hk⟩
  | kill =>
      rw [stageAt_kill] at hst
      rw [stageAt_announceFrom hi, if_pos (Nat.lt_succ_self i)]
      have hone : p.signals + 1 = 1 := by rw [hst.2.2.1]
      unfold Party.signal
      split
      · exact ⟨⟨h.made, h.first, h.second, h.handler, h.reads⟩, ⟨hst.1, hst.2.1, hone⟩, hk⟩
      · rename_i hno
        refine ⟨⟨h.made, h.first, h.second, h.handler, h.reads⟩, ⟨hst.1, hst.2.1, hone⟩,
          fun hinst => ?_⟩
        exact absurd (h.handler hst.1.2.2.1 hinst) hno

theorem exchangeMove_within {n i : Nat} {p p' : Party} {c c' : Control}
    (hm : ExchangeMove n i p c c' p') (hi : i < n) : c'.Within n := by
  cases hm with
  | fork => exact hi
  | comeWrite => exact hi
  | leaveWrite => exact hi
  | comeRead => exact hi
  | leaveRead => exact connectFrom_within n (i + 1)
  | write => exact hi
  | kill => exact announceFrom_within n (i + 1)

theorem ok_exchange (h : StartupOk programs s) : StartupOk programs (moveExchange s) := by
  have hin : s.control.Within s.parties.length := by
    rw [h.length]
    exact h.within
  rcases exchange_cases hin with ⟨-, heq⟩ | ⟨i, p, c, p', hp, hm, heq⟩
  · rw [heq]
    exact h
  rw [heq]
  have hi := (List.getElem?_eq_some_iff.mp hp).1
  have hi' := hi
  rw [h.length] at hm hi'
  refine ⟨(List.length_set ..).trans h.length, exchangeMove_within hm hi',
    fun j q calls hq hcalls => ?_⟩
  dsimp only at hq ⊢
  by_cases hj : i = j
  · subst hj
    rw [List.getElem?_set_self hi] at hq
    cases hq
    obtain ⟨hcons, hst, hk⟩ := h.party i p calls hp hcalls
    exact exchangeMove_self hm hi' hcons hst hk
  · rw [List.getElem?_set_ne hj] at hq
    rw [exchangeMove_others hm hi' (List.getElem?_eq_some_iff.mp hcalls).1 (Ne.symm hj)]
    exact h.party j q calls hq hcalls

theorem ok_trader (h : StartupOk programs s) (i : Nat) :
    StartupOk programs (startupNext s (.trader i)) := by
  refine ⟨(List.length_modify ..).trans h.length, h.within, fun j p calls hp hcalls => ?_⟩
  by_cases hj : i = j
  · subst hj
    rw [startupNext, List.getElem?_modify_eq] at hp
    obtain ⟨q, hq, rfl⟩ := Option.map_eq_some_iff.mp hp
    obtain ⟨hcons, hst, hk⟩ := h.party i q calls hq hcalls
    rcases move_cases q with ⟨-, heq⟩ | hm
    · rw [heq]
      exact ⟨hcons, hst, hk⟩
    · refine ⟨consistent_move hcons hm, atStage_move hst hm, fun hinst => ?_⟩
      rw [(partyMove_main hm).2.2.2.2.2]
      exact hk hinst
  · rw [startupNext, List.getElem?_modify_ne _ _ hj] at hp
    exact h.party j p calls hp hcalls

theorem ok_init (programs : List (List TraderCall)) :
    StartupOk programs (startupInit programs) := by
  refine ⟨List.length_map .., connectFrom_within .., fun j p calls hp hcalls => ?_⟩
  rw [startupInit, List.getElem?_map, hcalls] at hp
  cases hp
  refine ⟨consistent_new calls, ?_, fun _ => rfl⟩
  have hlt : 0 < programs.length := Nat.zero_lt_of_lt (List.getElem?_eq_some_iff.mp hcalls).1
  show AtStage _ (stageAt (connectFrom programs.length 0) j)
  rw [connectFrom, if_pos hlt]
  simp only [stageAt, Nat.not_lt_zero, if_false]
  exact ⟨rfl, rfl, rfl, rfl⟩

theorem ok_next (h : StartupOk programs s) (m : Mover) : StartupOk programs (startupNext s m) := by
  cases m with
  | exchange => exact ok_exchange h
  | trader i => exact ok_trader h i

theorem ok_run (programs : List (List TraderCall)) (ms : List Mover) :
    StartupOk programs (run startupNext (startupInit programs) ms) :=
  run_inv (I := StartupOk programs) (fun _ m h => ok_next h m) ms (ok_init programs)

end Invariant

/-! ## 7. Safety -/

theorem party_of_mem {programs : List (List TraderCall)} {s : Startup} (h : StartupOk programs s)
    {p : Party} (hp : p ∈ s.parties) : ∃ j, AtStage p (stageAt s.control j) := by
  obtain ⟨j, hj, rfl⟩ := List.getElem_of_mem hp
  have hj' := hj
  rw [h.length] at hj'
  exact ⟨j, (h.party j _ _ (List.getElem?_eq_getElem hj) (List.getElem?_eq_getElem hj')).2.1⟩

/-- Main tells a trader that the market is open when all of them are connected. -/
theorem connected_of_marketOpen {programs : List (List TraderCall)} {s : Startup}
    (h : StartupOk programs s) {p q : Party} (hp : p ∈ s.parties) (hopen : p.marketOpen = true)
    (hq : q ∈ s.parties) : q.Connected := by
  obtain ⟨j, hst⟩ := party_of_mem h hp
  obtain ⟨k, hst'⟩ := party_of_mem h hq
  rcases atStage_quiet hst with hquiet | ⟨htold, -⟩
  · rw [hquiet.1] at hopen
    cases hopen
  · exact stageAt_told htold hst'

/-- **What no interleaving of the start does**: a trader is told that the market is open only when
    all are connected, it is signalled at most once and only then, also if the signal ends it, and
    the signal ends none that installs its handler before it opens `trader2exc`, as pe_trader
    does. -/
theorem startup_safe (programs : List (List TraderCall)) (ms : List Mover) (j : Nat) (p : Party)
    (calls : List TraderCall)
    (hp : (run startupNext (startupInit programs) ms).parties[j]? = some p)
    (hcalls : programs[j]? = some calls) :
    (p.marketOpen = true →
      ∀ q ∈ (run startupNext (startupInit programs) ms).parties, q.Connected) ∧
    p.signals ≤ 1 ∧ (p.signals = 1 → p.marketOpen = true) ∧ (p.killed = true → p.signals = 1) ∧
    (InstallsHandler calls → p.killed = false) := by
  have hok := ok_run programs ms
  obtain ⟨-, hst, hk⟩ := hok.party j p calls hp hcalls
  have hmem := List.mem_of_getElem? hp
  obtain ⟨hle, hone, hended⟩ := atStage_signals hst
  exact ⟨fun hopen q hq => connected_of_marketOpen hok hmem hopen hq, hle, hone, hended, hk⟩

theorem peTraderCalls_installs : InstallsHandler peTraderCalls := by
  intro a b h
  cases a with
  | nil => cases h
  | cons call a =>
      rw [List.cons_append] at h
      rw [← (List.cons.inj h).1]
      exact List.mem_cons_self

/-- Two traders, and the three processes in turn: the second is signalled and goes on. -/
theorem startup_safe_turns :
    ∃ p, (run startupNext (startupInit [peTraderCalls, peTraderCalls])
        (List.replicate 14 [Mover.exchange, .trader 0, .trader 1]).flatten).parties[1]? = some p ∧
      p.signals = 1 ∧ p.killed = false :=
  ⟨_, rfl, by decide, (startup_safe [peTraderCalls, peTraderCalls]
    (List.replicate 14 [Mover.exchange, .trader 0, .trader 1]).flatten 1 _ peTraderCalls rfl
    rfl).2.2.2.2 peTraderCalls_installs⟩

/-- A trader without a handler is ended by the signal, and it is counted. -/
example :
    ((run startupNext (startupInit [[.openRead, .openWrite]])
      (List.replicate 8 [Mover.exchange, .trader 0]).flatten).parties[0]?.map
        fun p => (p.signals, p.killed)) = some (1, true) := by decide

end SysProg.Pe
