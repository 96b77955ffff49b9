/-
  File:      SysProg/Pe/Shutdown.lean
  Subject:   WHEN THE EXCHANGE STOPS: the traders' processes, `waitpid`, and
             the counter `traders_online`.

  Every iteration of the event loop ends with one `waitpid(-1, &status,
  WNOHANG)`. With nothing to reap it returns 0, or -1 once no child is left,
  and `status` keeps the 0 it was set to, for which `WIFEXITED` is true; no
  trader has such a process id. A process that was ended by a signal is
  reaped like any other, but `WIFEXITED` is false of it: its trader is not
  marked, `traders_online` keeps it, and the loop never ends.

  A trader may have ended and not be reaped yet when main writes to its FIFO.
  It is assumed that the write does nothing then. In the program it can raise
  SIGPIPE, which main does not handle: that ends the exchange in the middle of
  an iteration, and the iterations before it are those of a run here.

  * `System`, `systemNext` -- main and the processes of its traders;
  * `Accounted` -- the counter, the marks and the end of the loop follow the
    processes that have been reaped;
  * `accounted_next` -- one step keeps that exactly if it reaps no process
    that was ended by a signal;
  * `shutdown_accounted` -- the same of every run.
-/
import SysProg.Pe.Notify

namespace SysProg.Pe

open Lib

/-! ## 1. The processes -/

/-- The process of a trader. `ended exited` has not been reaped yet; `exited` is `WIFEXITED` of
    the status it left: false if a signal ended it. -/
inductive Process where
  | running : Process
  | ended (exited : Bool) : Process
  | reaped : Process
  deriving DecidableEq, Repr

/-- main, and the processes of the traders in the order of its table. -/
structure System where
  main : Main
  processes : List Process
  deriving DecidableEq, Repr

/-- A process ends; main handles a command; an iteration ends, where `t` is the trader whose
    process `waitpid` returns, if it returns one. -/
inductive SystemAct where
  | ends (t : Nat) (exited : Bool) : SystemAct
  | command (pid : Nat) (text : List Char) : SystemAct
  | poll (t : Option Nat) : SystemAct
  deriving DecidableEq, Repr

def systemInit (products : List Word) (pids : List Nat) (marketArgv : List Word) : System where
  main := mainInit products pids marketArgv
  processes := pids.map fun _ => .running

/-- The trader whose process is reaped, and `WIFEXITED` of its status. -/
def reapable (s : System) (t : Option Nat) : Option (Nat × Bool) :=
  t.bind fun k =>
    match s.processes[k]? with
    | some (.ended exited) => some (k, exited)
    | _ => none

/-- What `waitpid` returns, and `WIFEXITED` of the status behind it. -/
def waitpid (s : System) (t : Option Nat) : Int × Bool :=
  match reapable s t with
  | some (k, exited) =>
      (match s.main.exchange.traders[k]? with
        | some tr => tr.traderPid
        | none => 0, exited)
  | none => (if s.processes.all (· = .reaped) then -1 else 0, true)

def systemNext (fee : Int → Int) (s : System) : SystemAct → System
  | .ends t exited =>
      if s.processes[t]? = some .running then
        { s with processes := s.processes.set t (.ended exited) }
      else s
  | .command pid text => { s with main := mainNext fee s.main (.command pid text) }
  | .poll t =>
      if s.main.exchangeDisconnect then s
      else
        { main := mainNext fee s.main (.poll (waitpid s t).1 (waitpid s t).2)
          processes :=
            match reapable s t with
            | some (k, _) => s.processes.set k .reaped
            | none => s.processes }

/-- `traders_online` counts the processes that have not been reaped, the traders of the others
    are marked, and the loop has ended exactly if there are no more. -/
structure Accounted (s : System) : Prop where
  online : s.main.tradersOnline = s.processes.countP (· ≠ .reaped)
  marked : s.main.exchange.traders.map (·.disconnected) = s.processes.map fun p => decide (p = .reaped)
  ended : s.main.exchangeDisconnect = true ↔ ∀ p ∈ s.processes, p = .reaped

/-- The iteration does not reap a process that a signal has ended. -/
def ReapsExits (s : System) : SystemAct → Prop
  | .poll t => ∀ k ∈ t, s.processes[k]? ≠ some (.ended false)
  | _ => True

instance (s : System) (a : SystemAct) : Decidable (ReapsExits s a) :=
  match a with
  | .ends _ _ => instDecidableTrue
  | .command _ _ => instDecidableTrue
  | .poll t => inferInstanceAs (Decidable (∀ k ∈ t, _))

/-! ## 2. One step -/

/-- What the processes of the traders and their ids are at any time. -/
structure SystemOk (pids : List Nat) (s : System) : Prop where
  ok : MainOk s.main
  ids : s.main.exchange.traders.map (·.traderPid) = pids

section Step

variable {fee : Int → Int} {pids : List Nat} {s : System}

theorem systemOk_next (fee : Int → Int) (hs : SystemOk pids s) (a : SystemAct) :
    SystemOk pids (systemNext fee s a) := by
  have hmain : ∀ i, SystemOk pids ⟨mainNext fee s.main i, (systemNext fee s a).processes⟩ :=
    fun i => ⟨mainOk_next fee hs.ok i, (next_pids fee hs.ok.sound i).trans hs.ids⟩
  cases a with
  | ends t exited =>
      unfold systemNext
      simp only
      split <;> exact ⟨hs.ok, hs.ids⟩
  | command pid text => exact hmain _
  | poll t =>
      by_cases hd : s.main.exchangeDisconnect = true
      · simp only [systemNext, hd, if_true]
        exact hs
      · have h := hmain (.poll (waitpid s t).1 (waitpid s t).2)
        simp only [systemNext, hd] at h ⊢
        exact h

/-- The processes that count, by their flags. -/
theorem unreaped_eq (ps : List Process) :
    ps.countP (· ≠ .reaped) = (ps.map fun p => decide (p = .reaped)).countP (! ·) := by
  rw [List.countP_map]
  exact List.countP_congr fun p _ => by simp

theorem all_reaped_iff (ps : List Process) :
    (∀ p ∈ ps, p = .reaped) ↔ ps.countP (· ≠ .reaped) = 0 := by
  rw [List.countP_eq_zero]
  simp

/-- Of the processes only the flags matter. -/
theorem accounted_congr {s s' : System} (hp : s'.processes.map (fun p => decide (p = .reaped)) =
      s.processes.map fun p => decide (p = .reaped))
    (ho : s'.main.tradersOnline = s.main.tradersOnline)
    (hm : s'.main.exchange.traders.map (·.disconnected) =
      s.main.exchange.traders.map (·.disconnected))
    (hd : s'.main.exchangeDisconnect = s.main.exchangeDisconnect) (h : Accounted s) :
    Accounted s' := by
  have hc : s'.processes.countP (· ≠ .reaped) = s.processes.countP (· ≠ .reaped) := by
    rw [unreaped_eq, unreaped_eq, hp]
  refine ⟨by rw [ho, hc]; exact h.online, by rw [hm, hp]; exact h.marked, ?_⟩
  rw [hd, all_reaped_iff, hc, ← all_reaped_iff]
  exact h.ended

/-- One process reaped: one less. -/
theorem unreaped_set {ps : List Process} {k : Nat} {x : Bool} (hk : ps[k]? = some (.ended x)) :
    (ps.set k .reaped).countP (· ≠ .reaped) + 1 = ps.countP (· ≠ .reaped) := by
  obtain ⟨hlt, he⟩ := List.getElem?_eq_some_iff.mp hk
  have hpos : 0 < ps.countP (· ≠ .reaped) :=
    List.countP_pos_iff.mpr ⟨_, List.mem_of_getElem? hk, by simp⟩
  rw [List.countP_set hlt, he]
  simp only [ne_eq, reduceCtorEq, not_false_eq_true, decide_true, if_true, not_true_eq_false,
    decide_false, Bool.false_eq_true, if_false]
  simp only [ne_eq] at hpos
  omega

/-- The marks after the process of trader `k` is reaped. -/
theorem marked_poll {ts : List Trader} (hnd : (ts.map (·.traderPid)).Nodup) {k : Nat} {tr : Trader}
    (hk : ts[k]? = some tr) :
    (ts.map fun t => if (t.traderPid : Int) = tr.traderPid then { t with disconnected := true }
        else t).map (·.disconnected) = (ts.map (·.disconnected)).set k true := by
  refine List.ext_getElem? fun j => ?_
  rw [List.map_map, List.getElem?_map, List.getElem?_set, List.getElem?_map, List.length_map]
  cases hj : ts[j]? with
  | none =>
      have hlt := (List.getElem?_eq_some_iff.mp hk).1
      have hge := List.getElem?_eq_none_iff.mp hj
      rw [if_neg (by omega)]
      rfl
  | some t =>
      simp only [Option.map_some, Function.comp_apply]
      by_cases he : k = j
      · subst he
        rw [hk] at hj
        cases hj
        rw [if_pos rfl, if_pos rfl, if_pos (List.getElem?_eq_some_iff.mp hk).1]
      · have hne : ¬ (t.traderPid : Int) = tr.traderPid := fun h =>
          he (pid_inj hnd hj hk (by omega)).symm
        rw [if_neg hne, if_neg he]

theorem count_pid {ts : List Trader} (hnd : (ts.map (·.traderPid)).Nodup) {k : Nat} {tr : Trader}
    (hk : ts[k]? = some tr) :
    (ts.countP fun t => (t.traderPid : Int) = tr.traderPid) = 1 := by
  have hmem : tr.traderPid ∈ ts.map (·.traderPid) :=
    List.mem_map.mpr ⟨tr, List.mem_of_getElem? hk, rfl⟩
  rw [← List.count_eq_one_of_mem hnd hmem, List.count, List.countP_map]
  exact List.countP_congr fun t _ => by simp

/-- An iteration that reaps nothing. -/
theorem accounted_idle (hpos : ∀ p ∈ pids, 0 < p) (hs : SystemOk pids s) (h : Accounted s)
    (hd : s.main.exchangeDisconnect = false) {pid : Int} (hpid : pid ≤ 0) :
    Accounted ⟨pollTraders s.main pid true, s.processes⟩ := by
  have hno : ∀ t ∈ s.main.exchange.traders, (t.traderPid : Int) ≠ pid := by
    intro t ht he
    have hmem : t.traderPid ∈ pids := by
      rw [← hs.ids]
      exact List.mem_map.mpr ⟨t, ht, rfl⟩
    have := hpos _ hmem
    omega
  have hcount : (s.main.exchange.traders.countP fun t => (t.traderPid : Int) = pid) = 0 :=
    List.countP_eq_zero.mpr fun t ht => by simpa using hno t ht
  have honline : s.main.tradersOnline ≠ 0 := by
    rw [h.online]
    intro hz
    have := h.ended.mpr ((all_reaped_iff _).mpr (by omega))
    rw [hd] at this
    cases this
  have hmap : s.main.exchange.traders.map (fun t =>
      if (t.traderPid : Int) = pid then { t with disconnected := true } else t) =
      s.main.exchange.traders := by
    refine (List.map_congr_left fun t ht => if_neg (hno t ht)).trans (List.map_id' _)
  refine accounted_congr (s := s) rfl ?_ ?_ ?_ h
  · show s.main.tradersOnline - _ = _
    rw [hcount]
    omega
  · show (s.main.exchange.traders.map _).map _ = _
    rw [hmap]
  · show decide (s.main.tradersOnline - _ = 0) = _
    rw [hcount, hd]
    simpa using honline

/-- An iteration that reaps the process of trader `k`. -/
theorem accounted_reap (hnd : pids.Nodup) (hs : SystemOk pids s) (h : Accounted s) {k : Nat}
    {tr : Trader} (htr : s.main.exchange.traders[k]? = some tr) {exited : Bool}
    (hk : s.processes[k]? = some (.ended exited)) :
    Accounted ⟨pollTraders s.main tr.traderPid exited, s.processes.set k .reaped⟩ ↔
      exited = true := by
  have hset := unreaped_set hk
  have honline := h.online
  constructor
  · intro h'
    have honline' := h'.online
    cases exited with
    | true => rfl
    | false =>
        have hsame : (pollTraders s.main tr.traderPid false).tradersOnline =
            s.main.tradersOnline := rfl
        simp only [hsame] at honline'
        omega
  · intro he
    subst he
    rw [← hs.ids] at hnd
    have honline' : (pollTraders s.main tr.traderPid true).tradersOnline =
        (s.processes.set k .reaped).countP (· ≠ .reaped) := by
      show s.main.tradersOnline - _ = _
      rw [count_pid hnd htr]
      omega
    refine ⟨honline', ?_, ?_⟩
    · show (s.main.exchange.traders.map _).map _ = _
      rw [marked_poll hnd htr, h.marked, List.map_set]
      rfl
    · rw [all_reaped_iff]
      show decide ((pollTraders s.main tr.traderPid true).tradersOnline = 0) = true ↔ _
      rw [honline', decide_eq_true_iff]
      exact Int.natCast_eq_zero

/-- **A step keeps the account exactly if it reaps no process that a signal has ended.** -/
theorem accounted_next (fee : Int → Int) (hnd : pids.Nodup) (hpos : ∀ p ∈ pids, 0 < p)
    (hs : SystemOk pids s) (h : Accounted s) (a : SystemAct) :
    Accounted (systemNext fee s a) ↔ ReapsExits s a := by
  cases a with
  | ends t exited =>
      refine ⟨fun _ => trivial, fun _ => ?_⟩
      unfold systemNext
      simp only
      split
      · rename_i ht
        refine accounted_congr (s := s) ?_ rfl rfl rfl h
        -- a process that has ended is still to be reaped
        refine List.ext_getElem? fun j => ?_
        rw [List.map_set, List.getElem?_set, List.length_map, List.getElem?_map]
        split
        · rename_i he
          subst he
          rw [if_pos (List.getElem?_eq_some_iff.mp ht).1, ht]
          rfl
        · rfl
      · exact h
  | command pid text =>
      refine ⟨fun _ => trivial, fun _ => ?_⟩
      obtain ⟨ho, hd⟩ := command_online fee s.main pid text
      refine accounted_congr (s := s) rfl ho ?_ hd h
      have hdoors := doors_command fee hs.ok.sound pid text
      have hflags := congrArg (List.map Prod.snd) hdoors
      simp only [doors, List.map_map, Function.comp_def] at hflags
      exact hflags
  | poll t =>
      by_cases hd : s.main.exchangeDisconnect = true
      · -- the loop has ended: there is nothing left to reap
        simp only [systemNext, hd, if_true]
        refine ⟨fun _ k _ hk => ?_, fun _ => h⟩
        cases h.ended.mp hd _ (List.mem_of_getElem? hk)
      · have hd' : s.main.exchangeDisconnect = false := Bool.eq_false_iff.mpr hd
        have hpoll : ∀ pid x, mainNext fee s.main (.poll pid x) = pollTraders s.main pid x := by
          intro pid x
          simp [mainNext, mainStep, hd']
        simp only [systemNext, hd', hpoll, Bool.false_eq_true, if_false]
        cases hr : reapable s t with
        | none =>
            have hw : (waitpid s t).1 ≤ 0 ∧ (waitpid s t).2 = true := by
              unfold waitpid
              rw [hr]
              simp only
              split <;> exact ⟨by decide, trivial⟩
            simp only [hw.2]
            refine ⟨fun _ k hk he => ?_, fun _ => accounted_idle hpos hs h hd' hw.1⟩
            cases hk
            simp [reapable, he] at hr
        | some r =>
            obtain ⟨k, exited⟩ := r
            obtain ⟨rfl, hk⟩ : t = some k ∧ s.processes[k]? = some (.ended exited) := by
              unfold reapable at hr
              cases t with
              | none => cases hr
              | some j =>
                  simp only [Option.bind_some] at hr
                  split at hr
                  · rename_i x hx
                    cases hr
                    exact ⟨rfl, hx⟩
                  · cases hr
            have hlen : s.processes.length = s.main.exchange.traders.length := by
              have := congrArg List.length h.marked
              simpa using this.symm
            have hlt : k < s.main.exchange.traders.length := by
              rw [← hlen]
              exact (List.getElem?_eq_some_iff.mp hk).1
            have htr := List.getElem?_eq_getElem hlt
            have hw : waitpid s (some k) =
                ((s.main.exchange.traders[k].traderPid : Int), exited) := by
              unfold waitpid
              simp only [hr, htr]
            simp only [hw]
            rw [accounted_reap hnd hs h htr hk]
            constructor
            · rintro rfl j hj he
              cases hj
              rw [hk] at he
              cases he
            · intro hc
              have := hc k rfl
              rw [hk] at this
              cases exited with
              | true => rfl
              | false => exact absurd rfl this

end Step

/-! ## 3. Every run -/

/-- **The account is right throughout a run exactly if no process that a signal has ended is
    reaped in it.** `fork` returns positive process ids, and no two of them are equal before one
    of the processes is reaped. -/
theorem shutdown_accounted (fee : Int → Int) (products : List Word) (pids : List Nat)
    (hne : pids ≠ []) (hnd : pids.Nodup) (hpos : ∀ p ∈ pids, 0 < p) (argv : List Word)
    (acts : List SystemAct) :
    Always (systemNext fee) Accounted (systemInit products pids argv) acts ↔
      AllSteps (systemNext fee) ReapsExits (systemInit products pids argv) acts := by
  have hinit : Accounted (systemInit products pids argv) := by
    refine ⟨?_, ?_, ?_⟩
    · have hall : ∀ p ∈ pids.map (fun _ => Process.running), decide (p ≠ .reaped) = true := by
        simp
      show (pids.length : Int) = _
      rw [show (systemInit products pids argv).processes = pids.map fun _ => .running from rfl,
        List.countP_eq_length.mpr hall, List.length_map]
    · simp [systemInit, mainInit, instTrader, Function.comp_def]
    · refine ⟨fun h => Bool.noConfusion h, fun h => ?_⟩
      obtain ⟨p, ps, rfl⟩ := List.exists_cons_of_ne_nil hne
      cases h .running List.mem_cons_self
  refine always_iff_allSteps (I := SystemOk pids) (N := fun _ _ => True)
    (fun s a hs _ => systemOk_next fee hs a) (fun s a hs _ h => accounted_next fee hnd hpos hs h a)
    acts ?_ hinit (allSteps_of_forall (fun _ _ => trivial) acts)
  exact ⟨mainOk_init products pids argv, by simp [systemInit, mainInit, instTrader, Function.comp_def]⟩

/-- Two traders that exit, with an idle poll and a command in between. -/
theorem shutdown_accounted_exits :
    Always (systemNext (· / 100)) Accounted
      (systemInit ["GPU".toList] [10, 11] (List.replicate 6 []))
      [.ends 1 true, .poll (some 1), .poll none, .command 10 "SELL 0 GPU 4 100;".toList,
        .ends 0 true, .poll (some 0)] :=
  (shutdown_accounted (· / 100) ["GPU".toList] [10, 11] (by decide) (by decide) (by decide)
    (List.replicate 6 []) _).mpr (by decide +kernel)

/-- One trader, ended by a signal: it has been reaped, and the loop goes on. -/
theorem shutdown_stuck :
    let s := run (systemNext (· / 100)) (systemInit ["GPU".toList] [10] (List.replicate 6 []))
      [.ends 0 false, .poll (some 0)]
    s.processes = [.reaped] ∧ s.main.tradersOnline = 1 ∧ s.main.exchangeDisconnect = false ∧
      ¬ Accounted s := by
  intro s
  have hp : s.processes = [.reaped] := by decide +kernel
  have hd : s.main.exchangeDisconnect = false := by decide +kernel
  refine ⟨hp, by decide +kernel, hd, fun h => ?_⟩
  have hend := h.ended.mpr (by rw [hp]; decide)
  rw [hd] at hend
  cases hend

end SysProg.Pe
