/-
  File:      SysProg/Pe/Grammar.lean
  Subject:   THE LANGUAGE OF THE COMMANDS: which texts `read_message` accepts.

  The three whitespace checks say that the message is made of words with
  single spaces between them (`spells_of_spaced`); the `strtok` loop then
  delivers these words, and the number of arguments and the first word decide.
  `Reads` states the language without the code.

  * `reads_of_readMessage`, `readMessage_of_reads` -- the two directions;
  * `readMessage_beyond` -- nothing is written behind the six entries;
  * `readMessage_grammar` -- both, for every message, product list and
    content of `market_argv`. A list with more than six entries holds what
    lies behind the array.
-/
import SysProg.Pe.Message

namespace SysProg.Pe

open Lib

/-! ## 1. The language -/

/-- The message is these words, none of them empty or with a space in it, with single spaces
    between them. -/
def Spells (ws : List Word) (message : List Char) : Prop :=
  (∀ w ∈ ws, IsWord ' ' w) ∧ message = unwords ' ' ws

/-- What a message is read as, and its words. -/
inductive Reads (products : List Word) (message : List Char) : MessageState → List Word → Prop where
  | order (side id item quantity price : Word) (hside : side = "SELL".toList ∨ side = "BUY".toList)
      (hitem : item ∈ products) (h : Spells [side, id, item, quantity, price] message) :
      Reads products message .ORDER_RECEIVED [side, id, item, quantity, price]
  | amend (id quantity price : Word) (h : Spells ["AMEND".toList, id, quantity, price] message) :
      Reads products message .AMEND_REQUEST ["AMEND".toList, id, quantity, price]
  | cancel (id : Word) (h : Spells ["CANCEL".toList, id] message) :
      Reads products message .CANCEL_REQUEST ["CANCEL".toList, id]

/-- A word of digits. -/
def IsNumber (w : Word) : Prop := w ≠ [] ∧ isNumeric w = true

theorem IsNumber.digits {w : Word} (h : IsNumber w) : ∀ c ∈ w, isdigit c = true :=
  List.all_eq_true.mp h.2

theorem IsNumber.plain {w : Word} (h : IsNumber w) : Plain w := plain_digits h.digits h.1

variable {products argv argv' : List Word} {message : List Char} {st : MessageState}
  {ws : List Word}

theorem Spells.tokens_eq (h : Spells ws message) : tokens ' ' message = ws := by
  rw [h.2]
  exact tokens_unwords ws h.1

theorem Reads.spells (h : Reads products message st ws) :
    Spells ws message ∧ ws ≠ [] ∧ ws.length ≤ 5 := by
  cases h with
  | order side id item quantity price hside hitem h => exact ⟨h, List.cons_ne_nil _ _, by simp⟩
  | amend id quantity price h => exact ⟨h, List.cons_ne_nil _ _, by simp⟩
  | cancel id h => exact ⟨h, List.cons_ne_nil _ _, by simp⟩

/-! ## 2. The whitespace checks -/

/-- A character in front of a message joins its first word. -/
theorem spells_cons {c : Char} (hc : c ≠ ' ') (h : Spells ws message) (hne : ws ≠ []) :
    ∃ ws', Spells ws' (c :: message) ∧ ws' ≠ [] := by
  obtain ⟨w, rest, rfl⟩ := List.exists_cons_of_ne_nil hne
  obtain ⟨hw, rfl⟩ := h
  obtain ⟨-, hsp⟩ := hw w List.mem_cons_self
  refine ⟨(c :: w) :: rest, ⟨fun v hv => ?_, ?_⟩, List.cons_ne_nil _ _⟩
  · rcases List.mem_cons.mp hv with rfl | hv
    · refine ⟨List.cons_ne_nil _ _, fun hmem => ?_⟩
      rcases List.mem_cons.mp hmem with e | hmem
      · exact hc e.symm
      · exact hsp hmem
    · exact hw v (List.mem_cons_of_mem _ hv)
  · cases rest <;> rfl

/-- **What passes the whitespace checks is made of words with single spaces between them.** -/
theorem spells_of_spaced : ∀ message : List Char, message ≠ [] → message.head? ≠ some ' ' →
    message.getLast? ≠ some ' ' → doubleSpace message = false →
    ∃ ws, Spells ws message ∧ ws ≠ []
  | [], hne, _, _, _ => absurd rfl hne
  | [c], _, hhead, _, _ => by
      have hc : c ≠ ' ' := fun e => hhead (by rw [e]; rfl)
      refine ⟨[[c]], ⟨fun w hw => ?_, rfl⟩, List.cons_ne_nil _ _⟩
      rw [List.mem_singleton.mp hw]
      exact ⟨List.cons_ne_nil _ _, fun h => hc (List.mem_singleton.mp h).symm⟩
  | c :: d :: rest, _, hhead, hlast, hdouble => by
      have hc : c ≠ ' ' := fun e => hhead (by rw [e]; rfl)
      have hlast' : (d :: rest).getLast? ≠ some ' ' := by
        rwa [List.getLast?_cons_cons] at hlast
      obtain ⟨hcd, hdouble'⟩ := Bool.or_eq_false_iff.mp hdouble
      by_cases hd : d = ' '
      · -- a space ends the word `c`: what follows it is spaced again
        subst hd
        have hrest : rest ≠ [] := fun e => hlast' (by rw [e]; rfl)
        have hhead' : rest.head? ≠ some ' ' := by
          intro e
          obtain ⟨tail, rfl⟩ : ∃ tail, rest = ' ' :: tail := by
            cases rest with
            | nil => cases e
            | cons x tail => exact ⟨tail, by rw [Option.some.inj e]⟩
          exact absurd (Bool.or_eq_false_iff.mp hdouble').1 (by decide)
        have hlast'' : rest.getLast? ≠ some ' ' := by
          obtain ⟨x, tail, rfl⟩ := List.exists_cons_of_ne_nil hrest
          rwa [List.getLast?_cons_cons] at hlast'
        have hdouble'' : doubleSpace rest = false := by
          obtain ⟨x, tail, rfl⟩ := List.exists_cons_of_ne_nil hrest
          exact (Bool.or_eq_false_iff.mp hdouble').2
        obtain ⟨ws, ⟨hw, rfl⟩, hne⟩ := spells_of_spaced rest hrest hhead' hlast'' hdouble''
        obtain ⟨w, ws, rfl⟩ := List.exists_cons_of_ne_nil hne
        refine ⟨[c] :: w :: ws, ⟨fun v hv => ?_, rfl⟩, List.cons_ne_nil _ _⟩
        rcases List.mem_cons.mp hv with rfl | hv
        · exact ⟨List.cons_ne_nil _ _, fun h => hc (List.mem_singleton.mp h).symm⟩
        · exact hw v hv
      · have hhead' : (d :: rest).head? ≠ some ' ' := fun e => hd (Option.some.inj e)
        obtain ⟨ws, h, hne⟩ :=
          spells_of_spaced (d :: rest) (List.cons_ne_nil _ _) hhead' hlast' hdouble'
        exact spells_cons hc h hne

/-- A message that is split is spelled by its tokens, which go to the front of `market_argv`. -/
theorem splitMessage_spells {k : Nat} (h : splitMessage message argv = (some k, argv'))
    (hl : 5 ≤ argv.length) :
    ∃ ws, Spells ws message ∧ ws ≠ [] ∧ ws.length = k ∧ argv' = ws ++ argv.drop k := by
  obtain ⟨hk, hargv⟩ := splitMessage_some h hl
  unfold splitMessage at h
  split at h
  · cases h
  · rename_i hnil
    split at h
    · cases h
    · rename_i hends
      obtain ⟨hhead, hlast⟩ := not_or.mp hends
      split at h
      · cases h
      · rename_i hdouble
        obtain ⟨ws, hs, hne⟩ :=
          spells_of_spaced message hnil hhead hlast (Bool.eq_false_iff.mpr hdouble)
        rw [hs.tokens_eq] at hk hargv
        exact ⟨ws, hs, hne, hk, hargv⟩

/-! ## 3. The two directions -/

/-- **A text of the language is read as what it is.** -/
theorem readMessage_of_reads (h : Reads products message st ws) (hl : 5 ≤ argv.length) :
    readMessage message argv products = (st, ws ++ argv.drop ws.length) := by
  obtain ⟨⟨hw, rfl⟩, hne, h5⟩ := h.spells
  have hsplit := splitMessage_unwords ws argv hw hne h5 (by omega)
  cases h with
  | order side id item quantity price hside hitem h => exact readMessage_of_split hsplit hitem hside
  | amend id quantity price h =>
      unfold readMessage
      rw [hsplit]
      rfl
  | cancel id h =>
      unfold readMessage
      rw [hsplit]
      rfl

/-- **What is read as a command is a text of the language.** -/
theorem reads_of_readMessage (h : (readMessage message argv products).1 = st)
    (hst : st ≠ .INVALID_MESSAGE) (hl : 5 ≤ argv.length) : ∃ ws, Reads products message st ws := by
  obtain ⟨argv', hread⟩ : ∃ argv', readMessage message argv products = (st, argv') :=
    ⟨_, Prod.ext h rfl⟩
  obtain ⟨rfl, hsplit, hitem, hside⟩ | ⟨rfl, hsplit, hword⟩ | ⟨rfl, hsplit, hword⟩ :=
    readMessage_cases hread hst
  · obtain ⟨ws, hs, -, hlen, rfl⟩ := splitMessage_spells hsplit hl
    match ws, hlen with
    | [side, id, item, quantity, price], _ =>
        exact ⟨_, .order side id item quantity price hside hitem hs⟩
  · obtain ⟨ws, hs, -, hlen, rfl⟩ := splitMessage_spells hsplit hl
    match ws, hlen with
    | [w, id, quantity, price], _ =>
        obtain rfl : w = "AMEND".toList := hword
        exact ⟨_, .amend id quantity price hs⟩
  · obtain ⟨ws, hs, -, hlen, rfl⟩ := splitMessage_spells hsplit hl
    match ws, hlen with
    | [w, id], _ =>
        obtain rfl : w = "CANCEL".toList := hword
        exact ⟨_, .cancel id hs⟩

/-- The words of a command that was read. -/
theorem readMessage_reads (h : readMessage message argv products = (st, argv'))
    (hst : st ≠ .INVALID_MESSAGE) (hl : 5 ≤ argv.length) :
    ∃ ws, Reads products message st ws ∧ argv' = ws ++ argv.drop ws.length := by
  obtain ⟨ws, hr⟩ := reads_of_readMessage (congrArg Prod.fst h) hst hl
  rw [readMessage_of_reads hr hl] at h
  exact ⟨ws, hr, (congrArg Prod.snd h).symm⟩

/-! ## 4. Behind the array -/

theorem copyTokens_beyond (ts : List Word) {n k : Nat} (argv : List Word) (hn : n ≤ 5)
    (hk : 6 ≤ k) : (copyTokens n ts argv).2[k]? = argv[k]? := by
  induction ts generalizing n argv with
  | nil => rfl
  | cons w ts ih =>
      unfold copyTokens
      split
      · exact List.getElem?_set_ne (by omega)
      · rw [ih (argv.set n w) (by omega)]
        exact List.getElem?_set_ne (by omega)

/-- No entry behind the sixth is written. -/
theorem readMessage_beyond (message : List Char) (argv products : List Word) {k : Nat}
    (hk : commandArgc ≤ k) : (readMessage message argv products).2[k]? = argv[k]? := by
  rw [readMessage_argv]
  unfold splitMessage
  split
  · rfl
  · split
    · rfl
    · split
      · rfl
      · exact copyTokens_beyond _ argv (by omega) hk

/-! ## 5. The parser and the language -/

/-- **`read_message` accepts exactly its language**, whatever earlier messages left in
    `market_argv`; the words of a command go to its front, and nothing behind its six entries is
    written. -/
theorem readMessage_grammar (message : List Char) (products argv : List Word)
    (hl : commandArgc ≤ argv.length) :
    (∀ st, st ≠ .INVALID_MESSAGE →
      ((readMessage message argv products).1 = st ↔ ∃ ws, Reads products message st ws)) ∧
    ((readMessage message argv products).1 = .INVALID_MESSAGE ↔
      ¬ ∃ st ws, Reads products message st ws) ∧
    (∀ st ws, Reads products message st ws →
      (readMessage message argv products).2 = ws ++ argv.drop ws.length) ∧
    (readMessage message argv products).2.length = argv.length ∧
    ∀ k, commandArgc ≤ k → (readMessage message argv products).2[k]? = argv[k]? := by
  have h5 : 5 ≤ argv.length := le_trans (by decide) hl
  refine ⟨fun st hst => ⟨fun h => reads_of_readMessage h hst h5, ?_⟩, ⟨?_, fun hno => ?_⟩, ?_, ?_,
    fun k hk => readMessage_beyond message argv products hk⟩
  · intro h
    obtain ⟨ws, h⟩ := h
    rw [readMessage_of_reads h h5]
  · intro hinv h
    obtain ⟨st, ws, h⟩ := h
    rw [readMessage_of_reads h h5] at hinv
    obtain rfl : st = .INVALID_MESSAGE := hinv
    cases h
  · by_contra hst
    obtain ⟨ws, h⟩ := reads_of_readMessage rfl hst h5
    exact hno ⟨_, ws, h⟩
  · intro st ws h
    rw [readMessage_of_reads h h5]
  · rw [readMessage_argv]
    exact splitMessage_length message argv

/-- `"CANCEL 0"` after `"BUY 0 GPU 30 500"`. -/
theorem readMessage_grammar_cancel :
    let argv := ["BUY", "0", "GPU", "30", "500", ""].map String.toList
    (readMessage "CANCEL 0".toList argv ["GPU".toList]).1 = .CANCEL_REQUEST ∧
      (readMessage "CANCEL 0".toList argv ["GPU".toList]).2 =
        ["CANCEL", "0", "GPU", "30", "500", ""].map String.toList := by
  intro argv
  obtain ⟨hst, -, hargv, -⟩ :=
    readMessage_grammar "CANCEL 0".toList ["GPU".toList] argv (by decide)
  have h : Reads ["GPU".toList] "CANCEL 0".toList .CANCEL_REQUEST ["CANCEL".toList, "0".toList] :=
    .cancel "0".toList ⟨by simp [IsWord], rfl⟩
  exact ⟨(hst _ (by decide)).mpr ⟨_, h⟩, hargv _ _ h⟩

end SysProg.Pe
