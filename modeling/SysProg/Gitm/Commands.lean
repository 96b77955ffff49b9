/-
  File:      SysProg/Gitm/Commands.lean
  Subject:   THE COMMAND LANGUAGE: what the loop makes of a line.

  `Asks` is the language: five commands of one word, `place` with a
  coordinate, and everything else. `perform` is what each of them does,
  `reply` what it answers. The loop reads a line of up to 48 characters
  whole; of a longer one it has the first 49 in its buffer and skips the rest.

  * `fgets_append`, `fgets_long` -- what `fgets` takes of a line;
  * `processing_word`, `processing_place`, `processing_none` --
    `input_processing` accepts one word, or `place` and a second one;
  * `perform_stdout` -- the answer to each request;
  * `short_line` -- a line of up to 48 characters does what it asks;
  * `long_line_iff` -- a longer one does exactly if its first 49 characters
    are not all spaces and do not only look like a `place`.
-/
import SysProg.Gitm.Replay

namespace SysProg.Gitm

open Lib

/-! ## 1. Lines of the input -/

/-- The input begins with `line`, and `rest` follows it; the last line may end with the input. -/
structure LineOf (input line rest : List Char) : Prop where
  newline : '\n' ∉ line
  nul : '\x00' ∉ line
  ends : input = line ++ '\n' :: rest ∨ (input = line ∧ rest = [] ∧ line ≠ [])

theorem fgets_nil (n : Nat) : fgets n [] = ([], []) := by
  cases n with
  | zero => rfl
  | succ n => rfl

/-- `fgets` takes what fits of a line before it looks at what follows it. -/
theorem fgets_append {line : List Char} (tail : List Char) (hn : '\n' ∉ line) :
    ∀ {n : Nat}, line.length ≤ n → fgets n (line ++ tail) =
      (line ++ (fgets (n - line.length) tail).1, (fgets (n - line.length) tail).2) := by
  induction line with
  | nil =>
      intro n _
      rfl
  | cons c line ih =>
      intro n hlen
      rw [List.length_cons] at hlen
      obtain ⟨m, rfl⟩ : ∃ m, n = m + 1 := ⟨n - 1, by omega⟩
      have hc : c ≠ '\n' := fun e => hn (e ▸ List.mem_cons_self)
      have hsub : m + 1 - (c :: line).length = m - line.length := by
        rw [List.length_cons]
        omega
      rw [List.cons_append, fgets, if_neg hc, hsub,
        ih (fun h => hn (List.mem_cons_of_mem c h)) (show line.length ≤ m by omega)]
      rfl

/-- A line that does not fit is cut where the buffer ends. -/
theorem fgets_long (tail : List Char) {n : Nat} {line : List Char} (hn : '\n' ∉ line)
    (hlen : n ≤ line.length) : fgets n (line ++ tail) = (line.take n, line.drop n ++ tail) := by
  have htake : (line.take n).length = n := by
    rw [List.length_take]
    omega
  have hcut : '\n' ∉ line.take n := fun hm => hn (List.mem_of_mem_take hm)
  have h := fgets_append (line.drop n ++ tail) hcut (Nat.le_of_eq htake)
  rw [htake, Nat.sub_self, ← List.append_assoc, List.take_append_drop] at h
  rw [h, fgets, List.append_nil]

/-- What the loop reads of a line of up to 48 characters: the line, and perhaps its newline. -/
theorem fgets_line {input line rest : List Char} (h : LineOf input line rest)
    (hlen : line.length ≤ 48) :
    ∃ buffer, fgets (bufferLen - 1) input = (buffer, rest) ∧ cutAt '\n' buffer = line ∧
      overlong buffer = false ∧ input ≠ [] := by
  cases h.ends with
  | inl e =>
      have hcstr : cstr (line ++ ['\n']) = line ++ ['\n'] := by
        refine takeWhile_of_all (all_ne ?_)
        simp [h.nul]
      refine ⟨line ++ ['\n'], ?_, cutAt_terminated h.newline h.nul (by decide), ?_, ?_⟩
      · obtain ⟨m, hm⟩ : ∃ m, bufferLen - 1 - line.length = m + 1 :=
          ⟨48 - line.length, by unfold bufferLen; omega⟩
        rw [e, fgets_append _ h.newline (by unfold bufferLen; omega), hm]
        rfl
      · unfold overlong bufferLen
        rw [hcstr, List.length_append, List.length_singleton]
        by_cases h48 : line.length = 48
        · rw [List.getElem?_append_right (by omega), h48]
          rfl
        · rw [decide_eq_false (by omega), Bool.false_and]
      · rw [e]
        simp
  | inr e =>
      obtain ⟨e, hrest, hne⟩ := e
      have hcstr : cstr line = line := takeWhile_of_all (all_ne h.nul)
      refine ⟨line, ?_, ?_, ?_, ?_⟩
      · have happ := fgets_append [] h.newline (show line.length ≤ bufferLen - 1 by
          unfold bufferLen
          omega)
        rw [fgets_nil, List.append_nil] at happ
        rw [e, hrest, happ]
      · rw [cutAt, hcstr]
        exact takeWhile_of_all (all_ne h.newline)
      · unfold overlong bufferLen
        rw [hcstr, decide_eq_false (by omega), Bool.false_and]
      · rw [e]
        exact hne

/-! ## 2. The words of a line -/

section Words

variable {buffer line w : List Char}

theorem word_ends {d : Char} (hw : IsWord d w) : ¬(w.head? = some d ∨ w.getLast? = some d) := by
  intro h
  cases h with
  | inl h => exact hw.2 (List.mem_of_head? h)
  | inr h => exact hw.2 (List.mem_of_getLast? h)

/-- One word. -/
theorem processing_word (hb : cutAt '\n' buffer = line) (hw : IsWord ' ' line) :
    inputProcessing buffer = some (line, []) := by
  unfold inputProcessing
  dsimp only
  rw [hb, if_neg hw.1, if_neg (word_ends hw), if_neg (by rw [List.count_eq_zero.mpr hw.2]; decide),
    (strtok_word (r := []) hw).1]
  exact if_neg fun h => h.2 rfl

/-- Two words with one space between them. -/
theorem processing_two {v : List Char} (hb : cutAt '\n' buffer = v ++ ' ' :: w)
    (hv : IsWord ' ' v) (hw : IsWord ' ' w) :
    inputProcessing buffer = if v = "place".toList then some (v, w) else none := by
  have hends : ¬((v ++ ' ' :: w).head? = some ' ' ∨ (v ++ ' ' :: w).getLast? = some ' ') := by
    have hh : (v ++ ' ' :: w).head? = v.head? := by
      rw [List.head?_append_of_ne_nil _ hv.1]
    have hl : (v ++ ' ' :: w).getLast? = w.getLast? := by
      rw [← List.singleton_append, ← List.append_assoc, List.getLast?_append_of_ne_nil _ hw.1]
    rw [hh, hl]
    intro h
    cases h with
    | inl h => exact word_ends hv (Or.inl h)
    | inr h => exact word_ends hw (Or.inr h)
  have hcount : (v ++ ' ' :: w).count ' ' = 1 := by
    rw [List.count_append, List.count_cons_self, List.count_eq_zero.mpr hv.2,
      List.count_eq_zero.mpr hw.2]
  unfold inputProcessing
  dsimp only
  rw [hb, if_neg (by simp), if_neg hends, if_neg (by omega), (strtok_word hv).2]
  show (if v ≠ "place".toList ∧ ((strtok ' ' w).map Prod.fst).getD [] ≠ [] then none
    else some (v, ((strtok ' ' w).map Prod.fst).getD [])) = _
  rw [(strtok_word (r := []) hw).1]
  show (if v ≠ "place".toList ∧ w ≠ [] then none else some (v, w)) = _
  by_cases hp : v = "place".toList
  · rw [if_pos hp, if_neg fun h => h.1 hp]
  · rw [if_neg hp, if_pos ⟨hp, hw.1⟩]

/-- A line that passes the checks has one word or two. -/
theorem words_of_checks (hne : line ≠ []) (hends : ¬(line.head? = some ' ' ∨ line.getLast? = some ' '))
    (hcount : ¬ 1 < line.count ' ') :
    IsWord ' ' line ∨ ∃ v w, line = v ++ ' ' :: w ∧ IsWord ' ' v ∧ IsWord ' ' w := by
  obtain ⟨hhead, hlast⟩ := not_or.mp hends
  by_cases hmem : ' ' ∈ line
  · obtain ⟨v, w, rfl, hv⟩ := List.eq_append_cons_of_mem hmem
    rw [List.count_append, List.count_cons_self] at hcount
    have hw : ' ' ∉ w := List.count_eq_zero.mp (by omega)
    refine Or.inr ⟨v, w, rfl, ⟨?_, hv⟩, ⟨?_, hw⟩⟩
    · intro e
      subst e
      exact hhead rfl
    · intro e
      subst e
      exact hlast (by simp)
  · exact Or.inl ⟨hne, hmem⟩

/-- Anything else is rejected. -/
theorem processing_none (hb : cutAt '\n' buffer = line) (hword : ¬ IsWord ' ' line)
    (htwo : ∀ w, IsWord ' ' w → line ≠ "place".toList ++ ' ' :: w) :
    inputProcessing buffer = none := by
  by_cases hchecks : line ≠ [] ∧ ¬(line.head? = some ' ' ∨ line.getLast? = some ' ') ∧
      ¬ 1 < line.count ' '
  · obtain ⟨hne, hends, hcount⟩ := hchecks
    cases words_of_checks hne hends hcount with
    | inl hw => exact absurd hw hword
    | inr hvw =>
        obtain ⟨v, w, e, hv, hw⟩ := hvw
        rw [processing_two (hb.trans e) hv hw, if_neg]
        intro hp
        rw [hp] at e
        exact htwo w hw e
  · unfold inputProcessing
    dsimp only
    rw [hb]
    by_cases hne : line = []
    · rw [if_pos hne]
    · rw [if_neg hne]
      by_cases hends : line.head? = some ' ' ∨ line.getLast? = some ' '
      · rw [if_pos hends]
      · rw [if_neg hends, if_pos (Decidable.not_not.mp fun hcount => hchecks ⟨hne, hends, hcount⟩)]

end Words

/-! ## 3. The language -/

/-- The commands of one word. -/
inductive Plain where
  | who
  | term
  | resign
  | history
  | view
  deriving DecidableEq, Repr

def Plain.text : Plain → List Char
  | who => "who".toList
  | term => "term".toList
  | resign => "resign".toList
  | history => "history".toList
  | view => "view".toList

/-- What a line can ask for. -/
inductive Request where
  | plain (c : Plain)
  | place (coord : List Char)
  | badCoord
  | invalid
  deriving DecidableEq, Repr

/-- `place`, one space and one word. -/
def PlaceLine (line : List Char) : Prop := ∃ w, IsWord ' ' w ∧ line = "place ".toList ++ w

/-- **The language**: a command of one word is exactly that word, a placement is `place` and a
    coordinate, and a `place` with any other word is a bad coordinate. -/
inductive Asks (line : List Char) : Request → Prop where
  | plain (c : Plain) (h : line = c.text) : Asks line (.plain c)
  | place (coord : List Char) (hc : IsCoord coord) (h : line = "place ".toList ++ coord) :
      Asks line (.place coord)
  | badCoord (w : List Char) (hw : IsWord ' ' w) (hc : ¬ IsCoord w)
      (h : line = "place ".toList ++ w) : Asks line .badCoord
  | invalid (hp : ∀ c : Plain, line ≠ c.text) (h : ¬ PlaceLine line) : Asks line .invalid

/-- What each request does; `l` are the contents of the local arrays behind a valid command. -/
def perform (l : Locals) (req : Request) (s : Game) : Game :=
  match req with
  | .plain .who => finish l (s.print (if s.currPlayer = 0 then "B\n".toList else "W\n".toList))
  | .plain .term => { s with status := .returned 1 }
  | .plain .resign =>
      { s.print (farewell (if s.currPlayer = 0 then "White wins!\n".toList
          else "Black wins!\n".toList) s.history) with status := .returned 0 }
  | .plain .history => finish l (s.print (s.history ++ ['\n']))
  | .plain .view => finish l (s.print (viewText s.map s.midMist))
  | .place coord =>
      match place s.map s.currPlayer coord with
      | none => finish l (s.print "Occupied coordinate\n".toList)
      | some (map, midMist) =>
          finish l { s with map := map, midMist := midMist, history := s.history ++ coord,
                            nextRound := 1 }
  | .badCoord => s.print invalidCoordText
  | .invalid => s.print invalidText

/-- What each request answers. -/
def reply (s : Game) : Request → List Char
  | .plain .who => if s.currPlayer = 0 then "B\n".toList else "W\n".toList
  | .plain .term => []
  | .plain .resign =>
      (if s.currPlayer = 0 then "White wins!\n".toList else "Black wins!\n".toList)
        ++ s.history ++ "\nThank you for playing!\n".toList
  | .plain .history => s.history ++ "\n".toList
  | .plain .view => viewText s.map s.midMist
  | .place coord =>
      if s.map (cellRow coord) (cellColumn coord) = '.' then []
      else "Occupied coordinate\n".toList
  | .badCoord => "Invalid coordinate\n".toList
  | .invalid => "Invalid!\n".toList

theorem Plain.isWord (c : Plain) : IsWord ' ' c.text := by
  cases c <;> exact ⟨by decide, by decide⟩

theorem Plain.text_injective {c c' : Plain} (h : c.text = c'.text) : c = c' := by
  revert h
  cases c <;> cases c' <;> decide

theorem IsCoord.isWord {coord : List Char} (hc : IsCoord coord) : IsWord ' ' coord := by
  obtain ⟨h, hh, v, _, _, rfl⟩ := hc
  have hletter : ∀ h < 19, ' ' ≠ Char.ofNat (65 + h) := by decide
  refine ⟨List.cons_ne_nil _ _, fun hm => ?_⟩
  cases List.mem_cons.mp hm with
  | inl e => exact hletter h hh e
  | inr hm => exact absurd (itoa_digits v ' ' hm) (by decide)

theorem Plain.not_placeLine (c : Plain) : ¬ PlaceLine c.text := by
  intro h
  obtain ⟨w, _, e⟩ := h
  refine c.isWord.2 ?_
  rw [e]
  exact List.mem_append_left _ (by decide)

/-- A line of the form `place w` asks for one thing, by its word. -/
theorem Asks.placeLine {line : List Char} {req : Request} (h : Asks line req) {w : List Char}
    (hw : IsWord ' ' w) (e : line = "place ".toList ++ w) :
    (IsCoord w ∧ req = .place w) ∨ (¬ IsCoord w ∧ req = .badCoord) := by
  cases h with
  | plain c h => exact absurd ⟨w, hw, h.symm.trans e⟩ c.not_placeLine
  | place coord hc h =>
      obtain rfl : w = coord := List.append_cancel_left (e.symm.trans h)
      exact Or.inl ⟨hc, rfl⟩
  | badCoord w' _ hc h =>
      obtain rfl : w = w' := List.append_cancel_left (e.symm.trans h)
      exact Or.inr ⟨hc, rfl⟩
  | invalid _ h => exact absurd ⟨w, hw, e⟩ h

/-- **Every line asks for exactly one thing.** -/
theorem asks_unique (line : List Char) : ∃! req, Asks line req := by
  by_cases hplace : PlaceLine line
  · obtain ⟨w, hw, e⟩ := hplace
    by_cases hc : IsCoord w
    · refine ⟨.place w, .place w hc e, fun req h => ?_⟩
      exact ((h.placeLine hw e).resolve_right fun h => h.1 hc).2
    · refine ⟨.badCoord, .badCoord w hw hc e, fun req h => ?_⟩
      exact ((h.placeLine hw e).resolve_left fun h => hc h.1).2
  · by_cases hplain : ∃ c : Plain, line = c.text
    · obtain ⟨c, e⟩ := hplain
      refine ⟨.plain c, .plain c e, fun req h => ?_⟩
      cases h with
      | plain c' h => rw [Plain.text_injective (h.symm.trans e)]
      | place coord hc h => exact absurd ⟨coord, hc.isWord, h⟩ hplace
      | badCoord w hw _ h => exact absurd ⟨w, hw, h⟩ hplace
      | invalid h _ => exact absurd e (h c)
    · have hp : ∀ c : Plain, line ≠ c.text := fun c e => hplain ⟨c, e⟩
      refine ⟨.invalid, .invalid hp hplace, fun req h => ?_⟩
      cases h with
      | plain c h => exact absurd h (hp c)
      | place coord hc h => exact absurd ⟨coord, hc.isWord, h⟩ hplace
      | badCoord w hw _ h => exact absurd ⟨w, hw, h⟩ hplace
      | invalid _ _ => rfl

/-! ## 4. Lines of up to 48 characters -/

/-- The iteration that reads such a line. -/
theorem step_line {s : Game} (l : Locals) {line rest : List Char} (hrun : s.status = .running)
    (h : LineOf s.stdin line rest) (hlen : line.length ≤ 48) :
    ∃ buffer, cutAt '\n' buffer = line ∧
      (inputProcessing buffer = none → step s l = { s with stdin := rest }.print invalidText) ∧
      ∀ word coord, inputProcessing buffer = some (word, coord) →
        step s l = command l word coord { s with stdin := rest } := by
  obtain ⟨buffer, hf, hcut, hlong, hne⟩ := fgets_line h hlen
  rw [step, if_pos hrun, iteration, if_neg hne, hf]
  dsimp only
  rw [hlong, if_neg Bool.false_ne_true]
  refine ⟨buffer, hcut, fun e => ?_, fun word coord e => ?_⟩
  · rw [e]
  · rw [e]

theorem place_isWord : IsWord ' ' "place".toList := ⟨by decide, by decide⟩

theorem processing_place {buffer line w : List Char} (hb : cutAt '\n' buffer = line)
    (hw : IsWord ' ' w) (h : line = "place ".toList ++ w) :
    inputProcessing buffer = some ("place".toList, w) := by
  rw [processing_two (hb.trans h) place_isWord hw, if_pos rfl]

theorem command_plain (l : Locals) (c : Plain) (s : Game) :
    command l c.text [] s = perform l (.plain c) s := by
  cases c <;> rfl

/-- A word that is no command. -/
theorem command_unknown (l : Locals) {word : List Char} (h : ∀ c : Plain, word ≠ c.text)
    (s : Game) : command l word [] s = s.print invalidText := by
  have hwho : word ≠ "who".toList := h .who
  have hterm : word ≠ "term".toList := h .term
  have hresign : word ≠ "resign".toList := h .resign
  have hhistory : word ≠ "history".toList := h .history
  have hview : word ≠ "view".toList := h .view
  unfold command
  rw [if_neg hwho, if_neg hterm, if_neg hresign, if_neg hhistory, if_neg hview]
  -- `place` without a second word is rejected by its own case
  split
  · rfl
  · rfl

/-- **The loop does what the line asks.** -/
theorem step_asked {s : Game} (l : Locals) {line rest : List Char} (hrun : s.status = .running)
    (hline : LineOf s.stdin line rest) (hlen : line.length ≤ 48) {req : Request}
    (h : Asks line req) : step s l = perform l req { s with stdin := rest } := by
  obtain ⟨buffer, hcut, hnone, hsome⟩ := step_line l hrun hline hlen
  cases h with
  | plain c h =>
      subst h
      rw [hsome _ _ (processing_word hcut c.isWord)]
      exact command_plain l c _
  | place coord hc h =>
      rw [hsome _ _ (processing_place hcut hc.isWord h)]
      show placeCommand l coord _ = _
      rw [placeCommand, if_neg hc.isWord.1,
        if_neg (Bool.eq_false_iff.mp (invalidCoord_iff.mpr hc))]
      rfl
  | badCoord w hw hc h =>
      rw [hsome _ _ (processing_place hcut hw h)]
      show placeCommand l w _ = _
      rw [placeCommand, if_neg hw.1,
        if_pos (Bool.eq_true_of_not_eq_false fun e => hc (invalidCoord_iff.mp e))]
      rfl
  | invalid hp h =>
      by_cases hw : IsWord ' ' line
      · rw [hsome _ _ (processing_word hcut hw)]
        exact command_unknown l hp _
      · exact hnone (processing_none hcut hw fun w hw e => h ⟨w, hw, e⟩)

/-- **Every request is answered**: the answer is printed first, and is all while the game goes
    on. -/
theorem perform_stdout (l : Locals) (req : Request) (s : Game) :
    s.stdout ++ reply s req <+: (perform l req s).stdout ∧
      ((perform l req s).status = .running →
        (perform l req s).stdout = s.stdout ++ reply s req) := by
  -- `finish` may add the lines of the end of a game
  have hprint : ∀ text, s.stdout ++ text <+: (finish l (s.print text)).stdout ∧
      ((finish l (s.print text)).status = .running →
        (finish l (s.print text)).stdout = s.stdout ++ text) := fun text =>
    finish_stdout l (s.print text)
  cases req with
  | plain c =>
      cases c with
      | who => exact hprint _
      | term => exact ⟨(List.append_nil s.stdout).symm ▸ List.prefix_refl _, fun h => by cases h⟩
      | resign => exact ⟨List.prefix_refl _, fun h => by cases h⟩
      | history => exact hprint _
      | view => exact hprint _
  | place coord =>
      unfold perform reply place
      dsimp only
      by_cases hfree : s.map (cellRow coord) (cellColumn coord) = '.'
      · rw [if_neg (not_not_intro hfree), if_pos hfree, List.append_nil]
        exact finish_stdout l { s with
          map := Map.set s.map (cellRow coord) (cellColumn coord) (colourOf s.currPlayer).key
          midMist := mistCentre coord
          history := s.history ++ coord
          nextRound := 1 }
      · rw [if_pos hfree, if_neg hfree]
        exact hprint _
  | badCoord => exact ⟨List.prefix_refl _, fun _ => rfl⟩
  | invalid => exact ⟨List.prefix_refl _, fun _ => rfl⟩

/-- **The command language on ordinary lines**: the line asks for exactly one thing, the iteration
    does it and answers, and a bad coordinate or an invalid line leaves the game as it is. -/
theorem short_line (s : Game) (hrun : s.status = .running) (line rest : List Char)
    (hline : LineOf s.stdin line rest) (hlen : line.length ≤ 48) (l : Locals) :
    (∃! req, Asks line req) ∧
    ∀ req, Asks line req →
      step s l = perform l req { s with stdin := rest } ∧
      s.stdout ++ reply s req <+: (step s l).stdout ∧
      ((step s l).status = .running → (step s l).stdout = s.stdout ++ reply s req) ∧
      (req = .badCoord → (step s l).stdout = s.stdout ++ "Invalid coordinate\n".toList) ∧
      (req = .invalid → (step s l).stdout = s.stdout ++ "Invalid!\n".toList) ∧
      (req = .badCoord ∨ req = .invalid → SameGame s (step s l) ∧ (step s l).status = .running) := by
  refine ⟨asks_unique line, fun req h => ?_⟩
  have hstep := step_asked l hrun hline hlen h
  have hreply : reply { s with stdin := rest } req = reply s req := by
    cases req with
    | plain c => cases c <;> rfl
    | _ => rfl
  have hsame : req = .badCoord ∨ req = .invalid →
      SameGame s (step s l) ∧ (step s l).status = .running := by
    intro hreq
    rw [hstep]
    cases hreq with
    | inl e =>
        rw [e]
        exact ⟨(sameGame_stdin s rest).trans (sameGame_print _ _), hrun⟩
    | inr e =>
        rw [e]
        exact ⟨(sameGame_stdin s rest).trans (sameGame_print _ _), hrun⟩
  obtain ⟨hfront, hall⟩ := perform_stdout l req { s with stdin := rest }
  rw [← hstep, hreply] at hfront hall
  refine ⟨hstep, hfront, hall, fun e => ?_, fun e => ?_, hsame⟩
  · rw [hall (hsame (Or.inl e)).2, e]
    rfl
  · rw [hall (hsame (Or.inr e)).2, e]
    rfl

/-- `place A0`: the number is none of the board's. -/
theorem short_line_bad :
    let s := start "place A0\nwho\n".toList
    (step s ⟨[], [], []⟩).stdout = "Invalid coordinate\n".toList ∧
      SameGame s (step s ⟨[], [], []⟩) ∧ (step s ⟨[], [], []⟩).status = .running := by
  intro s
  have hline : LineOf s.stdin "place A0".toList "who\n".toList :=
    ⟨by decide, by decide, Or.inl rfl⟩
  have hc : ¬ IsCoord "A0".toList := fun hc => absurd (invalidCoord_iff.mpr hc) (by decide)
  obtain ⟨_, _, _, htext, _, hsame⟩ :=
    (short_line s rfl _ _ hline (by decide) ⟨[], [], []⟩).2 .badCoord
      (.badCoord "A0".toList ⟨by decide, by decide⟩ hc rfl)
  exact ⟨htext rfl, hsame (Or.inl rfl)⟩

/-! ## 5. Longer lines -/

/-- What the loop over `getchar` skips of the rest of a line; it stops in `tail`. -/
theorem skipRest_append {line tail rest : List Char} (hn : '\n' ∉ line) (h0 : '\x00' ∉ line)
    (htail : skipRest tail = (false, rest)) :
    skipRest (line ++ tail) = (decide (' ' ∈ line), rest) := by
  induction line with
  | nil => exact htail
  | cons c line ih =>
      have hc : ¬(c = '\x00' ∨ c = '\n') := by
        intro h
        cases h with
        | inl e => exact h0 (e ▸ List.mem_cons_self)
        | inr e => exact hn (e ▸ List.mem_cons_self)
      rw [List.cons_append, skipRest, if_neg hc, ih (fun h => hn (List.mem_cons_of_mem c h))
        fun h => h0 (List.mem_cons_of_mem c h)]
      simp [eq_comm]

/-- The third call of `strtok` finds nothing exactly if the first two words are all. -/
theorem thirdWord_eq_false_iff {rest : List Char} {n : Nat} :
    thirdWord rest = false ↔ (strtokAll ' ' (n + 2) rest).length ≤ 1 := by
  unfold thirdWord
  rw [strtokAll]
  cases strtok ' ' rest with
  | none => simp
  | some p =>
      obtain ⟨v, rest'⟩ := p
      dsimp only
      rw [Option.isSome_eq_false_iff, Option.isNone_iff_eq_none, ← strtokAll_eq_nil_iff (n := n),
        ← List.length_eq_zero_iff, List.length_cons]
      omega

/-- The first 49 characters hold `place` and at most one more word. -/
def LooksLikePlace (buffer : List Char) : Prop :=
  (tokens ' ' buffer).head? = some "place".toList ∧ (tokens ' ' buffer).length ≤ 2

instance (buffer : List Char) : Decidable (LooksLikePlace buffer) :=
  inferInstanceAs (Decidable (_ ∧ _))

theorem tokens_eq_nil_iff {buffer : List Char} (hlen : 3 ≤ buffer.length) :
    tokens ' ' buffer = [] ↔ strtok ' ' buffer = none := by
  obtain ⟨n, hn⟩ : ∃ n, buffer.length = n + 3 := ⟨buffer.length - 3, by omega⟩
  rw [tokens, hn]
  exact strtokAll_eq_nil_iff

/-- `coord_probability` says what the words of the buffer look like. -/
theorem looksLikePlace_iff {buffer word rest : List Char} (hlen : 3 ≤ buffer.length)
    (h : strtok ' ' buffer = some (word, rest)) :
    LooksLikePlace buffer ↔ word = "place".toList ∧ thirdWord rest = false := by
  obtain ⟨n, hn⟩ : ∃ n, buffer.length = n + 3 := ⟨buffer.length - 3, by omega⟩
  have hcons : tokens ' ' buffer = word :: strtokAll ' ' (n + 2) rest := by
    rw [tokens, hn, strtokAll, h]
  rw [LooksLikePlace, hcons, List.head?_cons, Option.some.injEq, List.length_cons,
    thirdWord_eq_false_iff (n := n), Nat.add_le_add_iff_right (n := 1)]

/-- What becomes of an overlong line. -/
theorem rejectLong_eq {buffer : List Char} (hlen : 3 ≤ buffer.length) (s : Game) :
    rejectLong buffer s =
      if tokens ' ' buffer = [] then { s with status := .crashed }
      else { s with stdin := (skipRest s.stdin).2 }.print
        (if LooksLikePlace buffer ∧ (skipRest s.stdin).1 = false then invalidCoordText
          else invalidText) := by
  unfold rejectLong
  cases htok : strtok ' ' buffer with
  | none => rw [if_pos ((tokens_eq_nil_iff hlen).mpr htok)]
  | some p =>
      obtain ⟨word, rest⟩ := p
      have hne : tokens ' ' buffer ≠ [] := by
        intro e
        rw [(tokens_eq_nil_iff hlen).mp e] at htok
        cases htok
      have hiff := looksLikePlace_iff hlen htok
      rw [if_neg hne]
      dsimp only
      by_cases hp : (word = "place".toList ∧ thirdWord rest = false) ∧ (skipRest s.stdin).1 = false
      · rw [if_pos hp, if_pos ⟨hiff.mpr hp.1, hp.2⟩]
      · rw [if_neg hp, if_neg fun h => hp ⟨hiff.mp h.1, h.2⟩]

theorem step_overlong {s : Game} (l : Locals) {buffer rest : List Char}
    (hrun : s.status = .running) (hne : s.stdin ≠ [])
    (hf : fgets (bufferLen - 1) s.stdin = (buffer, rest)) (hlong : overlong buffer = true) :
    step s l = rejectLong buffer { s with stdin := rest } := by
  rw [step, if_pos hrun, iteration, if_neg hne, hf]
  dsimp only
  rw [if_pos hlong]

/-- The iteration that reads a line of 49 characters or more. -/
theorem step_long {s : Game} (l : Locals) {line rest : List Char} (hrun : s.status = .running)
    (h : LineOf s.stdin line rest) (hlen : 49 ≤ line.length) :
    step s l =
      if tokens ' ' (line.take 49) = [] then
        { s with stdin := (fgets 49 s.stdin).2, status := .crashed }
      else { s with stdin := rest }.print
        (if LooksLikePlace (line.take 49) ∧ ' ' ∉ line.drop 49 then invalidCoordText
          else invalidText) := by
  have hn : '\n' ∉ line.drop 49 := fun hm => h.newline (List.mem_of_mem_drop hm)
  have h0 : '\x00' ∉ line.drop 49 := fun hm => h.nul (List.mem_of_mem_drop hm)
  obtain ⟨tail, hin, hskip⟩ : ∃ tail, s.stdin = line ++ tail ∧
      skipRest (line.drop 49 ++ tail) = (decide (' ' ∈ line.drop 49), rest) := by
    cases h.ends with
    | inl e => exact ⟨'\n' :: rest, e, skipRest_append hn h0 rfl⟩
    | inr e =>
        refine ⟨[], e.1.trans (List.append_nil line).symm, skipRest_append hn h0 ?_⟩
        rw [e.2.1]
        rfl
  have hf : fgets 49 s.stdin = (line.take 49, line.drop 49 ++ tail) := by
    rw [hin]
    exact fgets_long tail h.newline hlen
  have htake : (line.take 49).length = 49 := by
    rw [List.length_take]
    omega
  have hlong : overlong (line.take 49) = true := by
    have hcstr : cstr (line.take 49) = line.take 49 :=
      takeWhile_of_all (all_ne fun hm => h.nul (List.mem_of_mem_take hm))
    have h48 : (line.take 49)[48]? ≠ some '\n' := fun e =>
      h.newline (List.mem_of_mem_take (List.mem_of_getElem? e))
    unfold overlong bufferLen
    rw [hcstr, htake]
    simpa using h48
  have hne : s.stdin ≠ [] := by
    intro e
    rw [e] at hin
    have := congrArg List.length hin
    rw [List.length_append, List.length_nil] at this
    omega
  rw [step_overlong l hrun hne hf hlong, rejectLong_eq (by omega), hskip, hf]
  simp only [decide_eq_false_iff_not]

theorem PlaceLine.looksLikePlace {buffer : List Char} (h : PlaceLine buffer) :
    LooksLikePlace buffer := by
  obtain ⟨w, hw, rfl⟩ := h
  have htok : tokens ' ' ("place ".toList ++ w) = ["place".toList, w] := by
    refine tokens_unwords ["place".toList, w] fun v hv => ?_
    cases List.mem_cons.mp hv with
    | inl e => exact e ▸ place_isWord
    | inr hv => exact List.mem_singleton.mp hv ▸ hw
  rw [LooksLikePlace, htok]
  exact ⟨rfl, Nat.le_refl 2⟩

/-- A long line is a `place` with one word exactly if its first 49 characters are, and no space
    follows them. -/
theorem placeLine_take {line : List Char} (hlen : 49 ≤ line.length) :
    PlaceLine line ↔ PlaceLine (line.take 49) ∧ ' ' ∉ line.drop 49 := by
  constructor
  · intro h
    obtain ⟨w, hw, rfl⟩ := h
    have h6 : "place ".toList.length = 6 := rfl
    rw [List.length_append, h6] at hlen
    rw [List.take_append, List.drop_append, h6, List.take_of_length_le (by rw [h6]; decide),
      List.drop_eq_nil_of_le (by rw [h6]; decide)]
    refine ⟨⟨w.take 43, ⟨?_, fun hm => hw.2 (List.mem_of_mem_take hm)⟩, rfl⟩,
      fun hm => hw.2 (List.mem_of_mem_drop hm)⟩
    intro e
    have := congrArg List.length e
    rw [List.length_take, List.length_nil] at this
    omega
  · intro h
    obtain ⟨⟨v, hv, e⟩, hdrop⟩ := h
    refine ⟨v ++ line.drop 49, ⟨?_, ?_⟩, ?_⟩
    · exact List.append_ne_nil_of_left_ne_nil hv.1 _
    · intro hm
      cases List.mem_append.mp hm with
      | inl hm => exact hv.2 hm
      | inr hm => exact hdrop hm
    · rw [← List.append_assoc, ← e, List.take_append_drop]

/-- The long lines that are judged like short ones: their first 49 characters are not all spaces,
    and if they hold `place` and at most one more word, and no space follows them, they are `place`,
    one space and that word. -/
def LongKept (line : List Char) : Prop :=
  tokens ' ' (line.take 49) ≠ [] ∧
    (LooksLikePlace (line.take 49) → ' ' ∉ line.drop 49 → PlaceLine (line.take 49))

/-- **Overlong lines.** -/
theorem long_line_iff (s : Game) (hrun : s.status = .running) (line rest : List Char)
    (hline : LineOf s.stdin line rest) (hlen : 49 ≤ line.length) (l : Locals) :
    ((PlaceLine line → step s l = { s with stdin := rest }.print invalidCoordText) ∧
      (¬ PlaceLine line → step s l = { s with stdin := rest }.print invalidText)) ↔
    LongKept line := by
  have hstep := step_long l hrun hline hlen
  have hplace := placeLine_take hlen
  unfold LongKept
  by_cases htok : tokens ' ' (line.take 49) = []
  · -- the NULL of `strtok` is compared, whatever the line is
    rw [if_pos htok] at hstep
    have hcrash : ∀ text, step s l ≠ { s with stdin := rest }.print text := by
      intro text e
      have hs : Status.crashed = s.status := congrArg Game.status (hstep.symm.trans e)
      rw [hrun] at hs
      cases hs
    refine iff_of_false (fun h => ?_) fun h => h.1 htok
    by_cases hp : PlaceLine line
    · exact hcrash _ (h.1 hp)
    · exact hcrash _ (h.2 hp)
  · rw [if_neg htok] at hstep
    rw [and_iff_right htok]
    by_cases hlook : LooksLikePlace (line.take 49) ∧ ' ' ∉ line.drop 49
    · rw [if_pos hlook] at hstep
      have hne : { s with stdin := rest }.print invalidCoordText
          ≠ { s with stdin := rest }.print invalidText := by
        intro e
        exact absurd (List.append_cancel_left (congrArg Game.stdout e)) (by decide)
      constructor
      · intro h _ _
        by_contra hno
        have hinvalid := h.2 fun hp => hno (hplace.mp hp).1
        exact hne (hstep.symm.trans hinvalid)
      · intro h
        have hp : PlaceLine line := hplace.mpr ⟨h hlook.1 hlook.2, hlook.2⟩
        exact ⟨fun _ => hstep, fun hno => absurd hp hno⟩
    · rw [if_neg hlook] at hstep
      have hno : ¬ PlaceLine line := by
        intro hp
        obtain ⟨htake, hdrop⟩ := hplace.mp hp
        exact hlook ⟨htake.looksLikePlace, hdrop⟩
      refine iff_of_true ⟨fun hp => absurd hp hno, fun _ => hstep⟩ ?_
      exact fun h1 h2 => absurd ⟨h1, h2⟩ hlook

/-- `place` and a word of fifty letters. -/
theorem long_line_iff_word :
    let s := start ("place ".toList ++ List.replicate 50 'A' ++ "\nwho\n".toList)
    step s ⟨[], [], []⟩ = { s with stdin := "who\n".toList }.print invalidCoordText := by
  intro s
  have hword : IsWord ' ' (List.replicate 50 'A') := ⟨by decide, by decide⟩
  have hline : LineOf s.stdin ("place ".toList ++ List.replicate 50 'A') "who\n".toList :=
    ⟨by decide, by decide, Or.inl rfl⟩
  have h := long_line_iff s rfl _ _ hline (by decide) ⟨[], [], []⟩
  refine (h.mpr ⟨by decide +kernel, fun _ _ => ?_⟩).1 ⟨_, hword, rfl⟩
  exact ((placeLine_take (by decide)).mp ⟨_, hword, rfl⟩).1

/-- Forty-nine spaces: `strtok` returns NULL. -/
theorem long_line_crash :
    ¬ ∀ (s : Game), s.status = .running → ∀ line rest : List Char, LineOf s.stdin line rest →
      49 ≤ line.length → ∀ l : Locals,
        (PlaceLine line → step s l = { s with stdin := rest }.print invalidCoordText) ∧
          (¬ PlaceLine line → step s l = { s with stdin := rest }.print invalidText) := by
  intro h
  have hline : LineOf (List.replicate 49 ' ' ++ ['\n']) (List.replicate 49 ' ') [] :=
    ⟨by decide, by decide, Or.inl rfl⟩
  have h0 := h (start (List.replicate 49 ' ' ++ ['\n'])) rfl _ _ hline (by decide) ⟨[], [], []⟩
  have hno : ¬ PlaceLine (List.replicate 49 ' ') := by
    intro hp
    obtain ⟨w, _, e⟩ := hp
    have hhead : some ' ' = some 'p' := congrArg List.head? e
    exact absurd hhead (by decide)
  exact absurd (congrArg Game.status (h0.2 hno)) (by decide +kernel)

end SysProg.Gitm
