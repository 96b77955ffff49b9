/-
  File:      SysProg/Gitm/Restore.lean
  Subject:   THE HISTORY IS A SAVED GAME.

  `history` prints the coordinates placed so far without anything between
  them. Read back as `place` lines, they lead to the game they were printed
  in: the board, the player, the mist and the history, with nothing printed.
  What `check_game_cond` finds in its array can end a game early, so the
  arrays are part of the statement: those of the placements will do, and
  others exactly if they report no end behind a placement.

  * `free_of_not_mem` -- a coordinate that has not been placed is free;
  * `script_run` -- the lines of a script, placement by placement;
  * `restorable_run` -- the arrays of the placements of a run serve its history;
  * `history_restores` -- every run.
-/
import SysProg.Gitm.View
import SysProg.Gitm.Ending

namespace SysProg.Gitm

open Lib

/-! ## 1. A saved game -/

/-- The lines that place a list of coordinates. -/
def script (coords : List (List Char)) : List Char :=
  coords.flatMap fun coord => "place ".toList ++ coord ++ ['\n']

/-- The game after a list of coordinates, with nothing printed. -/
def restored (coords : List (List Char)) (rest : List Char) : Game :=
  { map := boardWith (stones coords), history := coords.flatten, currPlayer := coords.length % 2,
    nextRound := 0, midMist := mistOf coords, stdin := rest, stdout := [], status := .running }

/-- The last coordinate has been placed, and the turn has not passed. -/
def placed (coords : List (List Char)) (c rest : List Char) : Game :=
  { restored (coords ++ [c]) rest with currPlayer := coords.length % 2, nextRound := 1 }

/-- No placement of the list ends the game, where the arrays hold `ls`. -/
def GoesOn (coords : List (List Char)) (ls : List Locals) : Prop :=
  ∀ (k : Nat) (l : Locals), ls[k]? = some l → ¬ Over l (boardWith (stones (coords.take (k + 1))))

section Scripts

variable {coords : List (List Char)} {c rest : List Char} {ls : List Locals} {l : Locals}

theorem script_snoc (coords : List (List Char)) (c rest : List Char) :
    script (coords ++ [c]) ++ rest = script coords ++ ("place ".toList ++ c ++ '\n' :: rest) := by
  unfold script
  rw [List.flatMap_append, List.flatMap_singleton, List.append_assoc, List.append_assoc _ ['\n']]
  rfl

theorem goesOn_snoc (hlen : ls.length = coords.length) :
    GoesOn (coords ++ [c]) (ls ++ [l]) ↔
      GoesOn coords ls ∧ ¬ Over l (boardWith (stones (coords ++ [c]))) := by
  have htake : ∀ k, k < ls.length → (coords ++ [c]).take (k + 1) = coords.take (k + 1) := by
    intro k hk
    exact List.take_append_of_le_length (by omega)
  have hall : (coords ++ [c]).take (ls.length + 1) = coords ++ [c] :=
    List.take_of_length_le (by rw [List.length_append, hlen]; rfl)
  constructor
  · intro h
    refine ⟨fun k l' hk => ?_, ?_⟩
    · have hlt := (List.getElem?_eq_some_iff.mp hk).1
      rw [← htake k hlt]
      exact h k l' ((List.getElem?_append_left hlt).trans hk)
    · rw [← hall]
      exact h ls.length l List.getElem?_concat_length
  · intro h k l' hk
    by_cases hlt : k < ls.length
    · rw [List.getElem?_append_left hlt] at hk
      rw [htake k hlt]
      exact h.1 k l' hk
    · have hk' := (List.getElem?_eq_some_iff.mp hk).1
      rw [List.length_append, List.length_singleton] at hk'
      obtain rfl : k = ls.length := by omega
      rw [List.getElem?_concat_length] at hk
      cases hk
      rw [hall]
      exact h.2

/-- What can stand in a coordinate. -/
theorem IsCoord.not_mem (hc : IsCoord c) {d : Char} (hd : isdigit d = false)
    (hletter : ∀ h < 19, d ≠ Char.ofNat (65 + h)) : d ∉ c := by
  obtain ⟨h, hh, v, -, -, rfl⟩ := hc
  intro hm
  cases List.mem_cons.mp hm with
  | inl e => exact hletter h hh e
  | inr hm => exact absurd (itoa_digits v d hm) (by rw [hd]; exact Bool.false_ne_true)

/-- A coordinate that has not been placed is free. -/
theorem free_of_not_mem (hcs : ∀ c ∈ coords, IsCoord c) (hc : IsCoord c) (hn : c ∉ coords) :
    boardWith (stones coords) (cellRow c) (cellColumn c) = '.' := by
  have hcell := hc
  obtain ⟨h, hh, v, hv1, hv, rfl⟩ := hc
  obtain ⟨hrow, hcolumn⟩ := (cell_iff hcell hh hv).mpr rfl
  have hnone : coords.findIdx? (· = coordText h v) = none :=
    List.findIdx?_eq_none_iff.mpr fun c hm => decide_eq_false fun e => hn (e ▸ hm)
  have hh' : ((h : Int) + 1 - 1).toNat = h := by omega
  rw [hrow, hcolumn, boardWith_stones hcs hh hv1 hv, shown, if_pos (by omega), hh',
    Int.toNat_natCast, hnone]

/-! ## 2. Reading it back -/

theorem finish_running (l : Locals) {s : Game} (hrun : s.status = .running) :
    (finish l s).status = .running ↔ ¬ Over l s.map := by
  constructor
  · exact fun h hover => not_returned h ((finish_returned l hrun).mpr hover)
  · intro h
    obtain ⟨h1, h⟩ := not_or.mp h
    obtain ⟨h2, h3⟩ := not_or.mp h
    unfold finish
    rw [if_neg h1, if_neg h2, if_neg h3]
    split
    · split <;> exact hrun
    · exact hrun

/-- One line of a script places its stone; what follows is the turn. -/
theorem step_script (l : Locals) (hcs : ∀ c ∈ coords, IsCoord c) (hc : IsCoord c) (hn : c ∉ coords)
    (rest : List Char) :
    step (restored coords ("place ".toList ++ c ++ '\n' :: rest)) l =
      finish l (placed coords c rest) := by
  have hfree := free_of_not_mem hcs hc hn
  have hline : LineOf (restored coords ("place ".toList ++ c ++ '\n' :: rest)).stdin
      ("place ".toList ++ c) rest := by
    refine ⟨fun hm => ?_, fun hm => ?_, Or.inl rfl⟩
    · exact (List.mem_append.mp hm).elim (by decide) (hc.not_mem (by decide) (by decide))
    · exact (List.mem_append.mp hm).elim (by decide) (hc.not_mem (by decide) (by decide))
  have hlen : ("place ".toList ++ c).length ≤ 48 := by
    have hc3 := hc.length_le
    have h6 : "place ".toList.length = 6 := rfl
    rw [List.length_append, h6]
    omega
  have hplace : place (boardWith (stones coords)) (coords.length % 2) c =
      some (boardWith (stones (coords ++ [c])), mistCentre c) := by
    rw [place, if_neg (not_not.mpr hfree), stones_snoc,
      boardWith_snoc hc.cell.1 hc.cell.2 hfree]
  rw [step_asked l rfl hline hlen (.place c hc rfl)]
  unfold perform placed restored
  dsimp only
  rw [hplace, mistOf_snoc, List.flatten_append, List.flatten_singleton]

/-- The turn behind it. -/
theorem finish_placed (l : Locals) (coords : List (List Char)) (c rest : List Char) :
    (¬ Over l (boardWith (stones (coords ++ [c]))) →
        finish l (placed coords c rest) = restored (coords ++ [c]) rest) ∧
      (Over l (boardWith (stones (coords ++ [c]))) →
        (finish l (placed coords c rest)).status ≠ .running) := by
  have hrun : (placed coords c rest).status = .running := rfl
  have hmap : (placed coords c rest).map = boardWith (stones (coords ++ [c])) := rfl
  have hiff := finish_running l hrun
  rw [hmap] at hiff
  refine ⟨fun h => ?_, fun h hr => hiff.mp hr h⟩
  have hround : (placed coords c rest).nextRound ≠ 0 := Nat.one_ne_zero
  have hplayer : (if coords.length % 2 ≠ 0 then 0 else 1) = (coords ++ [c]).length % 2 := by
    rw [List.length_append, List.length_singleton]
    split <;> omega
  rw [finish_turn l hround (hiff.mpr h)]
  unfold placed restored
  dsimp only
  rw [hplayer]

/-- **A script restores its game**, unless a placement ends it. -/
theorem script_run (coords : List (List Char)) : (∀ c ∈ coords, IsCoord c) → coords.Nodup →
    ∀ (ls : List Locals) (rest : List Char), ls.length = coords.length →
      (GoesOn coords ls → run step (start (script coords ++ rest)) ls = restored coords rest) ∧
      (¬ GoesOn coords ls → (run step (start (script coords ++ rest)) ls).status ≠ .running) := by
  induction coords using List.reverseRecOn with
  | nil =>
      intro _ _ ls rest hlen
      obtain rfl := List.length_eq_zero_iff.mp hlen
      exact ⟨fun _ => rfl, fun h => absurd (fun k l hk => by cases hk) h⟩
  | append_singleton coords c ih =>
      intro hcs hnd ls rest hlen
      rw [List.length_append, List.length_singleton] at hlen
      rcases List.eq_nil_or_concat ls with rfl | ⟨ls, l, rfl⟩
      · cases hlen
      rw [List.concat_eq_append] at hlen ⊢
      rw [List.length_append, List.length_singleton] at hlen
      have hlen' := Nat.succ.inj hlen
      have hc := hcs c (List.mem_append_right _ List.mem_cons_self)
      have hcs' : ∀ c ∈ coords, IsCoord c := fun d hd => hcs d (List.mem_append_left _ hd)
      obtain ⟨hnd', -, hdisjoint⟩ := List.nodup_append.mp hnd
      have hn : c ∉ coords := fun hm => hdisjoint c hm c List.mem_cons_self rfl
      obtain ⟨hgo, hstop⟩ := ih hcs' hnd' ls ("place ".toList ++ c ++ '\n' :: rest) hlen'
      have hrun : run step (start (script (coords ++ [c]) ++ rest)) (ls ++ [l]) =
          step (run step (start (script coords ++ ("place ".toList ++ c ++ '\n' :: rest))) ls) l := by
        rw [script_snoc, run_append]
        rfl
      rw [hrun, goesOn_snoc hlen']
      by_cases hg : GoesOn coords ls
      · obtain ⟨hon, hover⟩ := finish_placed l coords c rest
        rw [hgo hg, step_script l hcs' hc hn, and_iff_right hg]
        exact ⟨hon, fun h => hover (not_not.mp h)⟩
      · refine ⟨fun h => absurd h.1 hg, fun _ => ?_⟩
        rw [step, if_neg (hstop hg)]
        exact hstop hg

/-- A running game is the restored one, apart from its input and output. -/
theorem Replay.eq_restored {s : Game} (h : Replay s coords) (hrun : s.status = .running)
    (rest : List Char) : { s with stdin := rest, stdout := [] } = restored coords rest := by
  unfold restored
  rw [← h.board, ← h.history, ← h.player, ← h.mist, ← h.round, ← hrun]

end Scripts

/-! ## 3. Every run -/

/-- What the arrays hold in the iterations that place a stone. -/
def atPlacements : Game → List Locals → List Locals
  | _, [] => []
  | s, l :: ls => (if (placement s).isSome then [l] else []) ++ atPlacements (step s l) ls

theorem atPlacements_snoc (s : Game) (ls : List Locals) (l : Locals) :
    atPlacements s (ls ++ [l]) =
      atPlacements s ls ++ if (placement (run step s ls)).isSome then [l] else [] := by
  induction ls generalizing s with
  | nil => exact List.append_nil _
  | cons l' ls ih =>
      rw [List.cons_append, atPlacements, ih, atPlacements, List.append_assoc]
      rfl

theorem atPlacements_sublist (s : Game) (ls : List Locals) :
    List.Sublist (atPlacements s ls) ls := by
  induction ls generalizing s with
  | nil => exact List.Sublist.refl _
  | cons l ls ih =>
      rw [atPlacements]
      split
      · exact (ih (step s l)).cons_cons l
      · exact (ih (step s l)).cons l

/-- The arrays of the placements of a run serve its history. -/
theorem restorable_run (stdin : List Char) (ls : List Locals) :
    (run step (start stdin) ls).status = .running →
      ∃ coords, Replay (run step (start stdin) ls) coords ∧
        (atPlacements (start stdin) ls).length = coords.length ∧
        GoesOn coords (atPlacements (start stdin) ls) := by
  induction ls using List.reverseRecOn with
  | nil => exact fun _ => ⟨[], replay_start stdin, rfl, fun k l hk => by cases hk⟩
  | append_singleton ls l ih =>
      rw [run_append, atPlacements_snoc]
      show (step (run step (start stdin) ls) l).status = .running → ∃ coords,
        Replay (step (run step (start stdin) ls) l) coords ∧ _
      generalize atPlacements (start stdin) ls = ls' at ih ⊢
      generalize run step (start stdin) ls = s at ih ⊢
      intro hr
      by_cases hrun : s.status = .running
      · obtain ⟨coords, hR, hlen, hgo⟩ := ih hrun
        have hR' := replay_step l hR hr
        cases hp : placement s with
        | none =>
            rw [hp, Option.toList_none, List.append_nil] at hR'
            rw [if_neg (by decide), List.append_nil]
            exact ⟨coords, hR', hlen, hgo⟩
        | some c =>
            rw [hp, Option.toList_some] at hR'
            rw [if_pos (by rfl)]
            refine ⟨coords ++ [c], hR', ?_, (goesOn_snoc hlen).mpr ⟨hgo, ?_⟩⟩
            · rw [List.length_append, List.length_append, hlen]
              rfl
            · -- the game went on behind this placement
              obtain ⟨-, -, hstep⟩ := step_placed l hp
              have hboard := hR'.board
              rw [hstep] at hr hboard
              rw [finish_turn l Nat.one_ne_zero hr] at hboard
              rw [finish_running] at hr
              · rw [← hboard]
                exact hr
              · exact hrun
      · rw [step, if_neg hrun] at hr
        exact absurd hr hrun

/-- **The history restores the game**: cut into its coordinates and read back as `place` lines, it
    leads to the state it was taken from, with nothing printed -- for arrays that report no end
    behind a placement, and for no others; what they held at the placements of the run will do. -/
theorem history_restores (stdin : List Char) (ls : List Locals)
    (hr : (run step (start stdin) ls).status = .running) :
    let s := run step (start stdin) ls
    (∃! coords : List (List Char), (∀ c ∈ coords, IsCoord c) ∧ coords.flatten = s.history) ∧
    ∀ coords : List (List Char), (∀ c ∈ coords, IsCoord c) → coords.flatten = s.history →
      (∀ (ls' : List Locals) (rest : List Char), ls'.length = coords.length →
        (run step (start (script coords ++ rest)) ls' = { s with stdin := rest, stdout := [] } ↔
          GoesOn coords ls')) ∧
      List.Sublist (atPlacements (start stdin) ls) ls ∧
      (atPlacements (start stdin) ls).length = coords.length ∧
      ∀ rest : List Char, run step (start (script coords ++ rest)) (atPlacements (start stdin) ls) =
        { s with stdin := rest, stdout := [] } := by
  intro s
  obtain ⟨coords, h, hlen, hgo⟩ := restorable_run stdin ls hr
  have hcut : ∀ coords' : List (List Char), (∀ c ∈ coords', IsCoord c) →
      coords'.flatten = s.history → coords' = coords := fun coords' hc e =>
    coords_unique hc h.coord (e.trans h.history)
  refine ⟨⟨coords, ⟨h.coord, h.history.symm⟩, fun c' hc' => hcut c' hc'.1 hc'.2⟩, ?_⟩
  intro coords' hc' e
  obtain rfl := hcut coords' hc' e
  have hiff : ∀ (ls' : List Locals) (rest : List Char), ls'.length = coords'.length →
      (run step (start (script coords' ++ rest)) ls' = { s with stdin := rest, stdout := [] } ↔
        GoesOn coords' ls') := by
    intro ls' rest hlen
    obtain ⟨hgo, hstop⟩ := script_run coords' h.coord h.nodup ls' rest hlen
    rw [h.eq_restored hr rest]
    refine ⟨fun heq => ?_, hgo⟩
    by_contra hno
    exact hstop hno (congrArg Game.status heq)
  exact ⟨hiff, atPlacements_sublist _ ls, hlen, fun rest => (hiff _ rest hlen).mpr hgo⟩

/-- Two stones and a question: the arrays of the first and the third line. -/
theorem history_restores_twoStones :
    let first : Locals := ⟨[], [], []⟩
    let third : Locals := ⟨['.'], [], []⟩
    let s := run step (start "place A1\nwho\nplace C13\n".toList) [first, ⟨[], ['.'], []⟩, third]
    s.history = "A1C13".toList ∧ ∀ rest : List Char,
      run step (start ("place A1\nplace C13\n".toList ++ rest)) [first, third] =
        { s with stdin := rest, stdout := [] } := by
  intro first third s
  have hhistory : s.history = "A1C13".toList := by decide +kernel
  have harrays : atPlacements (start "place A1\nwho\nplace C13\n".toList)
      [first, ⟨[], ['.'], []⟩, third] = [first, third] := by
    rw [atPlacements, if_pos (by decide +kernel), atPlacements, if_neg (by decide +kernel),
      atPlacements, if_pos (by decide +kernel), atPlacements]
    rfl
  refine ⟨hhistory, ?_⟩
  rw [← harrays]
  exact ((history_restores "place A1\nwho\nplace C13\n".toList
    [first, ⟨[], ['.'], []⟩, third] (by decide +kernel)).2 ["A1".toList, "C13".toList]
    (fun c hc => by
      rcases List.mem_cons.mp hc with rfl | hc
      · exact ⟨0, by decide, 1, by decide, by decide, by decide⟩
      · rw [List.mem_singleton.mp hc]
        exact ⟨2, by decide, 13, by decide, by decide, by decide⟩) hhistory.symm).2.2.2

end SysProg.Gitm
