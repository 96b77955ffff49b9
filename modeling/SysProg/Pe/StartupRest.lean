/-
  File:      SysProg/Pe/StartupRest.lean
  Subject:   THE START OF THE EXCHANGE COMPLETES, or it does not: every run
             comes to rest (Lib/Run.lean), and where main is then depends on
             the programs of the traders alone, not on who moved when.

  * `next_toGo` -- every move lowers the calls that are left;
  * `rest_control` -- at rest, main is in its event loop, or waits for a
    trader that does not open its FIFOs as main does;
  * `startup_completes_iff` -- the start completes exactly if all do.
-/
import SysProg.Lib.Run
import SysProg.Pe.Startup

namespace SysProg.Pe

open Lib

/-! ## 1. The calls that are left -/

/-- The moves a trader can still make. -/
def Party.toGo (p : Party) : Nat :=
  p.left.length + (if p.traderReads then 0 else 1) + (if p.traderWrites then 0 else 1)
    + (if p.excWrites then 0 else 1) + (if p.excReads then 0 else 1)

/-- The calls main has not made yet. -/
def Control.toGo (n : Nat) : Control → Nat
  | .fork i => 3 * (n - i) + 2 * n
  | .openWrite i => 3 * (n - i) + 2 * n - 1
  | .openRead i => 3 * (n - i) + 2 * n - 2
  | .write i => 2 * (n - i)
  | .kill i => 2 * (n - i) - 1
  | .eventLoop => 0

def Startup.toGo (s : Startup) : Nat :=
  s.control.toGo s.parties.length + (s.parties.map Party.toGo).sum

section Left

variable {programs : List (List TraderCall)} {s : Startup}

theorem partyMove_toGo {p p' : Party} (hm : PartyMove p p') : p'.toGo < p.toGo := by
  unfold Party.toGo
  cases hm with
  | sigaction hl =>
      rw [hl, List.length_cons]
      dsimp only
      omega
  | comeRead hl hnew => simp [hnew]
  | leaveRead hl _ _ =>
      rw [hl, List.length_cons]
      dsimp only
      omega
  | comeWrite hl hnew => simp [hnew]
  | leaveWrite hl _ _ =>
      rw [hl, List.length_cons]
      dsimp only
      omega

theorem connectFrom_toGo (n i : Nat) : (connectFrom n i).toGo n ≤ 3 * (n - i) + 2 * n := by
  unfold connectFrom announceFrom
  split
  · exact Nat.le_refl _
  · split
    · simp only [Control.toGo]
      omega
    · exact Nat.zero_le _

theorem announceFrom_toGo (n i : Nat) : (announceFrom n i).toGo n ≤ 2 * (n - i) := by
  unfold announceFrom
  split
  · exact Nat.le_refl _
  · exact Nat.zero_le _

theorem signal_toGo (p : Party) : p.signal.toGo = p.toGo := by
  unfold Party.signal
  split <;> rfl

theorem exchangeMove_toGo {n i : Nat} {p p' : Party} {c c' : Control}
    (hm : ExchangeMove n i p c c' p') (hi : i < n) :
    c'.toGo n + p'.toGo < c.toGo n + p.toGo := by
  cases hm with
  | fork =>
      simp only [Control.toGo, Party.toGo]
      omega
  | comeWrite hnew => simp [Party.toGo, hnew]
  | leaveWrite =>
      simp only [Control.toGo]
      omega
  | comeRead hnew => simp [Party.toGo, hnew]
  | leaveRead =>
      have hnext := connectFrom_toGo n (i + 1)
      rw [show Control.toGo n (.openRead i) = 3 * (n - i) + 2 * n - 2 from rfl]
      omega
  | write =>
      simp only [Control.toGo, Party.toGo]
      omega
  | kill =>
      have hnext := announceFrom_toGo n (i + 1)
      rw [signal_toGo, show Control.toGo n (.kill i) = 2 * (n - i) - 1 from rfl]
      omega

/-- **Every move lowers the calls that are left.** -/
theorem next_toGo (h : StartupOk programs s) (m : Mover) :
    startupNext s m = s ∨ (startupNext s m).toGo < s.toGo := by
  cases m with
  | exchange =>
      have hin : s.control.Within s.parties.length := by
        rw [h.length]
        exact h.within
      show moveExchange s = s ∨ (moveExchange s).toGo < s.toGo
      rcases exchange_cases hin with ⟨-, heq⟩ | ⟨i, p, c, p', hp, hm, heq⟩
      · exact Or.inl heq
      · have hlt := exchangeMove_toGo hm (List.getElem?_eq_some_iff.mp hp).1
        have hsum := sum_set_add Party.toGo p' hp
        right
        rw [heq]
        unfold Startup.toGo
        dsimp only
        rw [List.length_set]
        omega
  | trader i =>
      cases hp : s.parties[i]? with
      | none =>
          left
          rw [startupNext, List.modify_eq_self (List.getElem?_eq_none_iff.mp hp)]
      | some p =>
          have hset := modify_eq_set_of_some Party.move hp
          rcases move_cases p with ⟨-, heq⟩ | hm
          · left
            obtain ⟨hi, rfl⟩ := List.getElem?_eq_some_iff.mp hp
            rw [startupNext, hset, heq, List.set_getElem_self]
          · have hlt := partyMove_toGo hm
            have hsum := sum_set_add Party.toGo p.move hp
            right
            unfold Startup.toGo startupNext
            dsimp only
            rw [hset, List.length_set]
            omega

end Left

/-! ## 2. Who waits for what -/

section Wait

variable {calls : List TraderCall} {p : Party}

theorem connects_of_connected (h : Consistent calls p) (hp : p.Connected) : Connects calls := by
  obtain ⟨a, b, rfl, ha⟩ := h.first hp.1
  refine ⟨a, b, rfl, ha, ?_⟩
  have hmem := h.second hp.2.2.1
  rw [List.mem_append, List.mem_cons] at hmem
  exact (hmem.resolve_left ha).resolve_left (by decide)

/-- The first of two different calls is one of them. -/
theorem first_call {a b c d : List TraderCall} {x y : TraderCall} (hne : x ≠ y)
    (h : a ++ x :: b = c ++ y :: d) : x ∈ c ∨ y ∈ a := by
  rcases List.append_eq_append_iff.mp h with ⟨e, rfl, he⟩ | ⟨e, rfl, he⟩
  · cases e with
    | nil => exact absurd (List.cons.inj he).1 hne
    | cons z e =>
        cases he
        simp
  · cases e with
    | nil => exact absurd (List.cons.inj he).1.symm hne
    | cons z e =>
        cases he
        simp

/-- Main waits for a trader that does not come to `exc2trader`: its program does not open it, or
    opens `trader2exc` first. -/
theorem not_connects_of_writing (h : Consistent calls p) (hst : AtStage p .writing)
    (hw : PartyWaits p) (hreads : p.traderReads = false) : ¬ Connects calls := by
  rintro ⟨a, b, hab, ha, -⟩
  obtain ⟨made, hmade, hread, -⟩ := h.made
  have hnot : .openRead ∉ made := by
    intro hmem
    rw [hread hmem] at hreads
    cases hreads
  cases hw with
  | notStarted hs =>
      rw [hst.1] at hs
      cases hs
  | killed hk =>
      rw [hst.2.2.2.2] at hk
      cases hk
  | done hl =>
      rw [hl, List.append_nil] at hmade
      rw [← hmade, hab] at hnot
      simp at hnot
  | read hl hcame hexc =>
      rw [hreads] at hcame
      cases hcame
  | write hl hcame hexc =>
      rw [hab, hl] at hmade
      rcases first_call (by decide) hmade with hmem | hmem
      · exact hnot hmem
      · exact ha hmem

/-- Main waits for a trader that does not come to `trader2exc`: its program does not open it. -/
theorem not_connects_of_reading (h : Consistent calls p) (hst : AtStage p .reading)
    (hw : PartyWaits p) (hwrites : p.traderWrites = false) : ¬ Connects calls := by
  rintro ⟨a, b, hab, -, hb⟩
  obtain ⟨made, hmade, -, hwrite, -⟩ := h.made
  cases hw with
  | notStarted hs =>
      rw [hst.1] at hs
      cases hs
  | killed hk =>
      rw [hst.2.2.2.2.2] at hk
      cases hk
  | done hl =>
      have hmem : TraderCall.openWrite ∈ made := by
        rw [hl, List.append_nil] at hmade
        rw [← hmade, hab]
        simp [hb]
      rw [(hwrite hmem).1] at hwrites
      cases hwrites
  | read hl hcame hexc =>
      rw [hst.2.2.1] at hexc
      cases hexc
  | write hl hcame hexc =>
      rw [hwrites] at hcame
      cases hcame

end Wait

/-! ## 3. Rest -/

section Rest

variable {programs : List (List TraderCall)} {s : Startup}

theorem rest_party (hrest : AtRest startupNext s) {i : Nat} {p : Party}
    (hp : s.parties[i]? = some p) : PartyWaits p := by
  have hmove := congrArg (fun s : Startup => s.parties[i]?) (hrest (.trader i))
  simp only [startupNext] at hmove
  rw [List.getElem?_modify_eq, hp] at hmove
  rcases move_cases p with ⟨hw, -⟩ | hm
  · exact hw
  · have hlt := partyMove_toGo hm
    rw [Option.some.inj hmove] at hlt
    exact absurd hlt (Nat.lt_irrefl _)

theorem rest_exchange (h : StartupOk programs s) (hrest : AtRest startupNext s) :
    ExchangeWaits s := by
  have hin : s.control.Within s.parties.length := by
    rw [h.length]
    exact h.within
  have hmove : moveExchange s = s := hrest .exchange
  rcases exchange_cases hin with ⟨hw, -⟩ | ⟨i, p, c, p', hp, hm, heq⟩
  · exact hw
  · -- a move changes the state
    have hlt := exchangeMove_toGo hm (List.getElem?_eq_some_iff.mp hp).1
    rw [hmove] at heq
    have hc : s.control = c := congrArg Startup.control heq
    have hp' : s.parties[i]? = some p' := by
      rw [congrArg Startup.parties heq]
      exact List.getElem?_set_self (List.getElem?_eq_some_iff.mp hp).1
    rw [hp] at hp'
    rw [← hc, Option.some.inj hp'] at hlt
    exact absurd hlt (Nat.lt_irrefl _)

/-- Where main is when nothing moves: behind both loops, or at a trader that does not connect. -/
theorem rest_control (h : StartupOk programs s) (hrest : AtRest startupNext s) :
    s.control = .eventLoop ∨
      ∃ (i : Nat) (calls : List TraderCall), programs[i]? = some calls ∧ ¬ Connects calls := by
  have hcalls : ∀ {i : Nat} {p : Party}, s.parties[i]? = some p →
      ∃ calls, programs[i]? = some calls := by
    intro i p hp
    have hi := (List.getElem?_eq_some_iff.mp hp).1
    rw [h.length] at hi
    exact ⟨_, List.getElem?_eq_getElem hi⟩
  cases rest_exchange h hrest with
  | eventLoop hc => exact Or.inl hc
  | openWrite hc hp htrader =>
      rename_i i p
      obtain ⟨calls, hi⟩ := hcalls hp
      obtain ⟨hcons, hst, -⟩ := h.party i p calls hp hi
      rw [hc, stageAt_openWrite] at hst
      exact Or.inr ⟨i, calls, hi, not_connects_of_writing hcons hst (rest_party hrest hp) htrader⟩
  | openRead hc hp htrader =>
      rename_i i p
      obtain ⟨calls, hi⟩ := hcalls hp
      obtain ⟨hcons, hst, -⟩ := h.party i p calls hp hi
      rw [hc, stageAt_openRead] at hst
      exact Or.inr ⟨i, calls, hi, not_connects_of_reading hcons hst (rest_party hrest hp) htrader⟩

/-- Main is behind both loops: every trader connects. -/
theorem connects_of_eventLoop (h : StartupOk programs s) (hc : s.control = .eventLoop) :
    ∀ calls ∈ programs, Connects calls := by
  intro calls hmem
  obtain ⟨i, hi, rfl⟩ := List.getElem_of_mem hmem
  have hi' : i < s.parties.length := by
    rw [h.length]
    exact hi
  obtain ⟨hcons, hst, -⟩ := h.party i _ _ (List.getElem?_eq_getElem hi')
    (List.getElem?_eq_getElem hi)
  rw [hc] at hst
  exact connects_of_connected hcons hst.1

end Rest

/-- **The start completes exactly if every trader opens its two FIFOs in the order main does**:
    every run can be carried on until nothing moves, and then main is in its event loop exactly if
    every program connects; otherwise it waits, and no trader has been told that the market is
    open. -/
theorem startup_completes_iff (programs : List (List TraderCall)) (ms : List Mover) :
    (∃ more, AtRest startupNext (run startupNext (startupInit programs) (ms ++ more))) ∧
    (AtRest startupNext (run startupNext (startupInit programs) ms) →
      ((run startupNext (startupInit programs) ms).control = .eventLoop ↔
        ∀ calls ∈ programs, Connects calls) ∧
      ((run startupNext (startupInit programs) ms).control ≠ .eventLoop →
        ∀ p ∈ (run startupNext (startupInit programs) ms).parties, p.marketOpen = false)) := by
  have hok := ok_run programs ms
  refine ⟨?_, fun hrest => ⟨⟨connects_of_eventLoop hok, fun hall => ?_⟩, fun hne p hp => ?_⟩⟩
  · obtain ⟨more, hmore⟩ := exists_rest (fun s m h => ok_next h m) (fun s m h => next_toGo h m) hok
    refine ⟨more, ?_⟩
    rw [run_append]
    exact hmore
  · rcases rest_control hok hrest with hc | ⟨i, calls, hi, hnot⟩
    · exact hc
    · exact absurd (hall calls (List.mem_of_getElem? hi)) hnot
  · -- if one has been told, all are connected
    cases hopen : p.marketOpen with
    | false => rfl
    | true =>
        rcases rest_control hok hrest with hc | ⟨i, calls, hi, hnot⟩
        · exact absurd hc hne
        · have hi' := (List.getElem?_eq_some_iff.mp hi).1
          rw [← hok.length] at hi'
          obtain ⟨hcons, -⟩ := hok.party i _ calls (List.getElem?_eq_getElem hi') hi
          have hall := connected_of_marketOpen hok hp hopen (List.getElem_mem hi')
          exact absurd (connects_of_connected hcons hall) hnot

end SysProg.Pe
