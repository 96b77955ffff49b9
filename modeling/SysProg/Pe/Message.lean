/-
  File:      SysProg/Pe/Message.lean
  Subject:   The texts the exchange and its traders exchange: the message
             splitting both programs carry a copy of, `read_message`
             (pe_exchange.c), and the `sprintf` formats.

  A message is the C string cut at the first `;` (`cutAt ';'`). The splitting
  writes the words into `market_argv`, which keeps what earlier messages left
  in the entries it does not reach.
-/
import SysProg.Pe.Order

namespace SysProg.Pe

open Lib

/-- The number of entries of `market_argv`. -/
def commandArgc : Nat := 6

/-! ## 1. Splitting a message into `market_argv` -/

/-- Two spaces in a row. -/
def doubleSpace : List Char → Bool
  | a :: b :: r => (a = ' ' && b = ' ') || doubleSpace (b :: r)
  | _ => false

/-- The `strtok` loop: the tokens go to `market_argv[arg_count++]`; after the sixth the loop
    gives up (`none`). Otherwise `arg_count`. -/
def copyTokens (argCount : Nat) : List Word → List Word → Option Nat × List Word
  | [], marketArgv => (some argCount, marketArgv)
  | w :: ws, marketArgv =>
      if argCount + 1 > 5 then (none, marketArgv.set argCount w)
      else copyTokens (argCount + 1) ws (marketArgv.set argCount w)

/-- The part `read_message` and `read_from_exc` have in common; `none` is `INVALID_MESSAGE`. -/
def splitMessage (message : List Char) (marketArgv : List Word) : Option Nat × List Word :=
  if message = [] then (none, marketArgv)
  else if message.head? = some ' ' ∨ message.getLast? = some ' ' then (none, marketArgv)
  else if doubleSpace message then (none, marketArgv)
  else copyTokens 0 (tokens ' ' message) marketArgv

/-! ## 2. `read_message` -/

inductive MessageState where
  | ORDER_RECEIVED : MessageState
  | INVALID_MESSAGE : MessageState
  | AMEND_REQUEST : MessageState
  | CANCEL_REQUEST : MessageState
  deriving DecidableEq, Repr

def readMessage (message : List Char) (marketArgv : List Word) (productList : List Word) :
    MessageState × List Word :=
  match splitMessage message marketArgv with
  | (none, argv) => (.INVALID_MESSAGE, argv)
  | (some argCount, argv) =>
      if argAt argv 0 = "SELL".toList ∨ argAt argv 0 = "BUY".toList then
        if argCount ≠ 5 then (.INVALID_MESSAGE, argv)
        else if argAt argv 2 ∈ productList then (.ORDER_RECEIVED, argv)
        else (.INVALID_MESSAGE, argv)
      else if argAt argv 0 = "AMEND".toList then
        if argCount ≠ 4 then (.INVALID_MESSAGE, argv) else (.AMEND_REQUEST, argv)
      else if argAt argv 0 = "CANCEL".toList then
        if argCount ≠ 2 then (.INVALID_MESSAGE, argv) else (.CANCEL_REQUEST, argv)
      else (.INVALID_MESSAGE, argv)

/-! ## 3. The formats -/

def typeText : OrderType → Word
  | .BUY => "BUY".toList
  | .SELL => "SELL".toList

def invalidText : List Char := "INVALID;".toList

def acceptedText (orderId : Int) : List Char := "ACCEPTED ".toList ++ itoa orderId ++ [';']

def amendedText (orderId : Word) : List Char := "AMENDED ".toList ++ orderId ++ [';']

def cancelledText (orderId : Int) : List Char := "CANCELLED ".toList ++ itoa orderId ++ [';']

/-- `"MARKET %s %s %d %ld;"` -/
def marketText (type item : Word) (quantity unitPrice : Int) : List Char :=
  "MARKET ".toList ++ type ++ ' ' :: item ++ ' ' :: itoa quantity ++ ' ' :: itoa unitPrice ++ [';']

/-- `"FILL %d %d;"` -/
def fillText (orderId quantity : Int) : List Char :=
  "FILL ".toList ++ itoa orderId ++ ' ' :: itoa quantity ++ [';']

/-! ## 4. What `read_message` returns -/

/-- A command comes from one of three arms: each asks for its number of words and its first word. -/
theorem readMessage_cases {message : List Char} {argv argv' products : List Word}
    {st : MessageState} (h : readMessage message argv products = (st, argv'))
    (hst : st ≠ .INVALID_MESSAGE) :
    (st = .ORDER_RECEIVED ∧ splitMessage message argv = (some 5, argv') ∧
      argAt argv' 2 ∈ products ∧
      (argAt argv' 0 = "SELL".toList ∨ argAt argv' 0 = "BUY".toList)) ∨
    (st = .AMEND_REQUEST ∧ splitMessage message argv = (some 4, argv') ∧
      argAt argv' 0 = "AMEND".toList) ∨
    (st = .CANCEL_REQUEST ∧ splitMessage message argv = (some 2, argv') ∧
      argAt argv' 0 = "CANCEL".toList) := by
  unfold readMessage at h
  split at h
  · cases h
    exact absurd rfl hst
  · rename_i n argv₁ hs
    split at h
    · rename_i hside
      split at h
      · cases h
        exact absurd rfl hst
      · rename_i hn
        split at h
        · rename_i hp
          cases h
          have hn5 : n = 5 := by omega
          subst hn5
          exact Or.inl ⟨rfl, hs, hp, hside⟩
        · cases h
          exact absurd rfl hst
    · split at h
      · rename_i hamend
        split at h
        · cases h
          exact absurd rfl hst
        · rename_i hn
          cases h
          have hn4 : n = 4 := by omega
          subst hn4
          exact Or.inr (Or.inl ⟨rfl, hs, hamend⟩)
      · split at h
        · rename_i hcancel
          split at h
          · cases h
            exact absurd rfl hst
          · rename_i hn
            cases h
            have hn2 : n = 2 := by omega
            subst hn2
            exact Or.inr (Or.inr ⟨rfl, hs, hcancel⟩)
        · cases h
          exact absurd rfl hst

/-- An accepted order names a listed product, and the word before it is its side. -/
theorem readMessage_order {message : List Char} {argv argv' products : List Word}
    (h : readMessage message argv products = (.ORDER_RECEIVED, argv')) :
    splitMessage message argv = (some 5, argv') ∧ argAt argv' 2 ∈ products ∧
      (argAt argv' 0 = "SELL".toList ∨ argAt argv' 0 = "BUY".toList) := by
  obtain ⟨-, h⟩ | ⟨hst, -⟩ | ⟨hst, -⟩ := readMessage_cases h (by decide)
  · exact h
  · cases hst
  · cases hst

theorem readMessage_of_split {message : List Char} {argv argv' products : List Word}
    (h : splitMessage message argv = (some 5, argv')) (hitem : argAt argv' 2 ∈ products)
    (hside : argAt argv' 0 = "SELL".toList ∨ argAt argv' 0 = "BUY".toList) :
    readMessage message argv products = (.ORDER_RECEIVED, argv') := by
  unfold readMessage
  rw [h]
  simp only
  rw [if_pos hside, if_neg (fun hne => hne rfl), if_pos hitem]

theorem copyTokens_length (ws : List Word) (n : Nat) (argv : List Word) :
    (copyTokens n ws argv).2.length = argv.length := by
  induction ws generalizing n argv with
  | nil => rfl
  | cons w ws ih =>
      unfold copyTokens
      split
      · exact List.length_set
      · rw [ih (n + 1)]
        exact List.length_set

theorem splitMessage_length (message : List Char) (argv : List Word) :
    (splitMessage message argv).2.length = argv.length := by
  unfold splitMessage
  split
  · rfl
  · split
    · rfl
    · split
      · rfl
      · exact copyTokens_length _ _ _

theorem readMessage_argv (message : List Char) (argv products : List Word) :
    (readMessage message argv products).2 = (splitMessage message argv).2 := by
  unfold readMessage
  split
  · rename_i h
    rw [h]
  · rename_i h
    rw [h]
    simp only [apply_ite Prod.snd, ite_self]

/-! ## 5. A well-formed message -/

theorem head?_unwords {w : Word} (ws : List Word) (hw : w ≠ []) :
    (unwords ' ' (w :: ws)).head? = w.head? := by
  cases w with
  | nil => exact absurd rfl hw
  | cons c w => cases ws <;> rfl

theorem getLast?_unwords : ∀ (ws : List Word), (∀ w ∈ ws, IsWord ' ' w) → ws ≠ [] →
    ∃ c, (unwords ' ' ws).getLast? = some c ∧ c ≠ ' '
  | [], _, h => absurd rfl h
  | [w], hw, _ => by
      obtain ⟨hne, hsp⟩ := hw w List.mem_cons_self
      refine ⟨w.getLast hne, List.getLast?_eq_some_getLast hne, fun h => hsp ?_⟩
      rw [← h]
      exact List.getLast_mem hne
  | w :: v :: ws, hw, _ => by
      obtain ⟨c, hc, hne⟩ := getLast?_unwords (v :: ws)
        (fun x hx => hw x (List.mem_cons_of_mem _ hx)) (List.cons_ne_nil _ _)
      refine ⟨c, ?_, hne⟩
      show (w ++ ' ' :: unwords ' ' (v :: ws)).getLast? = some c
      rw [List.getLast?_append, List.getLast?_cons, hc]
      rfl

theorem doubleSpace_append {s : List Char} : ∀ {w : Word}, ' ' ∉ w → doubleSpace s = false →
    doubleSpace (w ++ s) = false
  | [], _, hs => hs
  | [a], ha, hs => by
      cases s with
      | nil => rfl
      | cons b s =>
          have hne : a ≠ ' ' := fun h => ha (by simp [h])
          simp only [List.singleton_append, doubleSpace, hne, decide_false, Bool.false_and,
            Bool.false_or]
          exact hs
  | a :: b :: w, ha, hs => by
      have hne : a ≠ ' ' := fun h => ha (by simp [h])
      have ih := doubleSpace_append (w := b :: w) (fun h => ha (List.mem_cons_of_mem _ h)) hs
      simp only [List.cons_append, doubleSpace, hne, decide_false, Bool.false_and, Bool.false_or]
      exact ih

theorem doubleSpace_unwords : ∀ (ws : List Word), (∀ w ∈ ws, IsWord ' ' w) →
    doubleSpace (unwords ' ' ws) = false
  | [], _ => rfl
  | [w], hw => by
      have h := doubleSpace_append (s := []) (hw w List.mem_cons_self).2 rfl
      rwa [List.append_nil] at h
  | w :: v :: ws, hw => by
      refine doubleSpace_append (s := ' ' :: unwords ' ' (v :: ws)) (hw w List.mem_cons_self).2 ?_
      have ih := doubleSpace_unwords (v :: ws) fun x hx => hw x (List.mem_cons_of_mem _ hx)
      obtain ⟨hne, hsp⟩ := hw v (by simp)
      have hhead := head?_unwords ws hne
      cases hu : unwords ' ' (v :: ws) with
      | nil => rfl
      | cons c cs =>
          rw [hu] at ih hhead
          have hc : c ≠ ' ' := by
            intro h
            subst h
            exact hsp (List.mem_of_head? hhead.symm)
          simp only [doubleSpace, hc, decide_false, Bool.and_false, Bool.false_or]
          exact ih

theorem copyTokens_all : ∀ (ws : List Word) (n : Nat) (argv : List Word),
    n + ws.length ≤ 5 → n + ws.length ≤ argv.length →
    copyTokens n ws argv =
      (some (n + ws.length), argv.take n ++ ws ++ argv.drop (n + ws.length))
  | [], n, argv, _, _ => by simp [copyTokens]
  | w :: ws, n, argv, h5, hl => by
      have hlen : n + (w :: ws).length = (n + 1) + ws.length := by simp; omega
      rw [hlen] at h5 hl ⊢
      have hn : n < argv.length := by omega
      have ih := copyTokens_all ws (n + 1) (argv.set n w) h5 (by rw [List.length_set]; exact hl)
      unfold copyTokens
      rw [if_neg (by omega), ih]
      have ht : (argv.set n w).take (n + 1) = argv.take n ++ [w] := by
        rw [List.take_add_one, List.take_set_of_le (Nat.le_refl n), List.getElem?_set_self hn]
        rfl
      have hd : (argv.set n w).drop (n + 1 + ws.length) = argv.drop (n + 1 + ws.length) :=
        List.drop_set_of_lt (by omega)
      rw [ht, hd, List.append_assoc (List.take n argv), List.singleton_append]

theorem copyTokens_some (ws : List Word) {n k : Nat} {argv argv' : List Word}
    (h : copyTokens n ws argv = (some k, argv')) (hn : n ≤ 5) : k = n + ws.length ∧ k ≤ 5 := by
  induction ws generalizing n argv with
  | nil =>
      cases h
      exact ⟨rfl, hn⟩
  | cons w ws ih =>
      unfold copyTokens at h
      split at h
      · cases h
      · obtain ⟨hk, h5⟩ := ih h (by omega)
        rw [List.length_cons]
        exact ⟨by omega, h5⟩

/-- The entries of `market_argv` that a message sets are its tokens. -/
theorem splitMessage_some {message : List Char} {argv argv' : List Word} {k : Nat}
    (h : splitMessage message argv = (some k, argv')) (hl : 5 ≤ argv.length) :
    (tokens ' ' message).length = k ∧ argv' = tokens ' ' message ++ argv.drop k := by
  unfold splitMessage at h
  split at h
  · cases h
  · split at h
    · cases h
    · split at h
      · cases h
      · obtain ⟨hk, h5⟩ := copyTokens_some _ h (by omega)
        rw [Nat.zero_add] at hk
        have hall := copyTokens_all (tokens ' ' message) 0 argv (by omega) (by omega)
        rw [h, Nat.zero_add, ← hk] at hall
        exact ⟨hk.symm, by simpa using (Prod.mk.inj hall).2⟩

/-- Whether a message is split, and into what, does not depend on what was there. -/
theorem splitMessage_other {message : List Char} {argv argv' argv'' : List Word} {k : Nat}
    (h : splitMessage message argv = (some k, argv')) (hl : 5 ≤ argv''.length) :
    splitMessage message argv'' = (some k, tokens ' ' message ++ argv''.drop k) := by
  unfold splitMessage at h ⊢
  split at h
  · cases h
  · rename_i hnil
    split at h
    · cases h
    · rename_i hends
      split at h
      · cases h
      · rename_i hdouble
        obtain ⟨hk, h5⟩ := copyTokens_some _ h (by omega)
        rw [if_neg hnil, if_neg hends, if_neg hdouble, copyTokens_all _ 0 argv'' (by omega) (by omega),
          ← hk]
        simp

/-- **Words joined by single spaces are split into themselves**, over what was there. -/
theorem splitMessage_unwords (ws argv : List Word) (hw : ∀ w ∈ ws, IsWord ' ' w) (hne : ws ≠ [])
    (h5 : ws.length ≤ 5) (hl : ws.length ≤ argv.length) :
    splitMessage (unwords ' ' ws) argv = (some ws.length, ws ++ argv.drop ws.length) := by
  obtain ⟨w, ws', rfl⟩ := List.exists_cons_of_ne_nil hne
  obtain ⟨hwne, hwsp⟩ := hw w List.mem_cons_self
  have hhead := head?_unwords ws' hwne
  obtain ⟨c, hlast, hc⟩ := getLast?_unwords _ hw hne
  have hnil : unwords ' ' (w :: ws') ≠ [] := fun h => by rw [h] at hlast; cases hlast
  have hends : ¬ ((unwords ' ' (w :: ws')).head? = some ' ' ∨
      (unwords ' ' (w :: ws')).getLast? = some ' ') := by
    rintro (h | h)
    · rw [hhead] at h
      exact hwsp (List.mem_of_head? h)
    · rw [hlast] at h
      exact hc (Option.some.inj h)
  unfold splitMessage
  rw [if_neg hnil, if_neg hends, doubleSpace_unwords _ hw, if_neg Bool.false_ne_true,
    tokens_unwords _ hw, copyTokens_all _ 0 argv (by omega) (by omega)]
  simp

/-! ## 6. A message as it is sent -/

/-- A word of a message: no blank, no terminator and no NUL in it. -/
def Plain (w : Word) : Prop := IsWord ' ' w ∧ ';' ∉ w ∧ '\x00' ∉ w

theorem plain_digits {s : List Char} (hs : ∀ c ∈ s, isdigit c = true) (hne : s ≠ []) : Plain s :=
  ⟨⟨hne, fun h => absurd (hs ' ' h) (by decide)⟩, fun h => absurd (hs ';' h) (by decide),
    fun h => absurd (hs '\x00' h) (by decide)⟩

/-- What `%d` prints. -/
theorem plain_itoa (i : Int) : Plain (itoa i) := by
  have hne : itoa i ≠ [] := by
    cases i with
    | ofNat n => exact itoa_ne_nil n
    | negSucc n => exact List.cons_ne_nil _ _
  exact ⟨⟨hne, notMem_itoa (by decide) (by decide) i⟩, notMem_itoa (by decide) (by decide) i,
    notMem_itoa (by decide) (by decide) i⟩

theorem mem_unwords {d c : Char} : ∀ {ws : List Word}, c ∈ unwords d ws → c = d ∨ ∃ w ∈ ws, c ∈ w
  | [], h => absurd h List.not_mem_nil
  | [w], h => Or.inr ⟨w, List.mem_cons_self, h⟩
  | w :: v :: ws, h => by
      rcases List.mem_append.mp h with h | h
      · exact Or.inr ⟨w, List.mem_cons_self, h⟩
      · rcases List.mem_cons.mp h with h | h
        · exact Or.inl h
        · rcases mem_unwords h with h | ⟨x, hx, h⟩
          · exact Or.inl h
          · exact Or.inr ⟨x, List.mem_cons_of_mem _ hx, h⟩

/-- The message of a terminated line of plain words. -/
theorem cutAt_unwords {ws : List Word} (hw : ∀ w ∈ ws, Plain w) :
    cutAt ';' (unwords ' ' ws ++ [';']) = unwords ' ' ws := by
  refine cutAt_terminated (fun h => ?_) (fun h => ?_) (by decide)
  · rcases mem_unwords h with h | ⟨w, hm, h⟩
    · exact absurd h (by decide)
    · exact (hw w hm).2.1 h
  · rcases mem_unwords h with h | ⟨w, hm, h⟩
    · exact absurd h (by decide)
    · exact (hw w hm).2.2 h

/-- **What is sent word by word arrives word by word.** -/
theorem splitMessage_sent {ws : List Word} (hw : ∀ w ∈ ws, Plain w) (hne : ws ≠ [])
    (h5 : ws.length ≤ 5) {argv : List Word} (hl : ws.length ≤ argv.length) :
    splitMessage (cutAt ';' (unwords ' ' ws ++ [';'])) argv =
      (some ws.length, ws ++ argv.drop ws.length) := by
  rw [cutAt_unwords hw]
  exact splitMessage_unwords ws argv (fun w h => (hw w h).1) hne h5 hl

end SysProg.Pe
