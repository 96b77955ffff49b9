/-
  File:      SysProg/Lib/Lists.lean
  Subject:   LISTS THAT A DESCRIPTION DETERMINES: waiting lines, levels, and
             blocks that stand one behind the other.

  * `Lined.unique` -- the elements with a property, each once, in an order of
    precedence: there is one such list, where precedence tells any two
    elements apart;
  * `Lined.takeWhile` -- the front of a line is the line of those that meet
    a bound;
  * `Lined.filterMap` -- elements change or leave, and keep their order;
  * `Lined.insert` -- one element joins the line;
  * `IsLevels.unique`, `IsLevels.length_eq` -- the distinct keys of a list,
    from the greatest to the least: there is one such list, and it has as many
    members as there are distinct keys;
  * `isLevels_singleton`, `IsLevels.cons_same`, `IsLevels.cons_above` -- the
    three ways a list that is sorted by its keys grows at its front;
  * `flatten_blocks_inj` -- blocks, each a head without `p` followed by
    elements with `p`: the concatenation determines them.
-/
import Mathlib.Data.Finset.Card
import Mathlib.Data.List.Nodup
import Mathlib.Data.List.Sort
import Mathlib.Data.List.TakeWhile
import Mathlib.Order.Basic

namespace SysProg.Lib

/-! ## 1. Waiting lines -/

section Lines

variable {α : Type*}

/-- `l` lists the elements with `P`, each once, in the order of `r`. -/
structure Lined (r : α → α → Prop) (P : α → Prop) (l : List α) : Prop where
  sorted : l.Pairwise r
  nodup : l.Nodup
  mem : ∀ a, a ∈ l ↔ P a

variable {r : α → α → Prop} {P : α → Prop} {l l' : List α}

/-- **There is one such list.** -/
theorem Lined.unique (hanti : ∀ a b, P a → P b → r a b → r b a → a = b) (h : Lined r P l)
    (h' : Lined r P l') : l = l' := by
  refine List.Perm.eq_of_pairwise (fun a b ha hb => ?_) h.sorted h'.sorted ?_
  · exact hanti a b ((h.mem a).mp ha) ((h'.mem b).mp hb)
  · exact (List.perm_ext_iff_of_nodup h.nodup h'.nodup).mpr
      fun a => (h.mem a).trans (h'.mem a).symm

/-- In a sorted list those that meet a bound stand in front. -/
theorem takeWhile_eq_filter_of_sorted {q : α → Bool} (hl : l.Pairwise r)
    (hq : ∀ a b, r a b → q b = true → q a = true) : l.takeWhile q = l.filter q := by
  induction l with
  | nil => rfl
  | cons a l ih =>
      obtain ⟨ha, hl'⟩ := List.pairwise_cons.mp hl
      cases hqa : q a with
      | true => rw [List.takeWhile_cons_of_pos hqa, List.filter_cons_of_pos hqa, ih hl']
      | false =>
          rw [List.takeWhile_cons_of_neg (by rw [hqa]; exact Bool.false_ne_true), eq_comm,
            List.filter_eq_nil_iff]
          intro b hb hqb
          rcases List.mem_cons.mp hb with rfl | hb
          · rw [hqa] at hqb
            cases hqb
          · rw [hq a b (ha b hb) hqb] at hqa
            cases hqa

/-- **The front of a line.** -/
theorem Lined.takeWhile {q : α → Bool} (h : Lined r P l)
    (hq : ∀ a b, r a b → q b = true → q a = true) :
    Lined r (fun a => P a ∧ q a = true) (l.takeWhile q) where
  sorted := h.sorted.sublist (List.takeWhile_sublist q)
  nodup := h.nodup.sublist (List.takeWhile_sublist q)
  mem a := by
    rw [takeWhile_eq_filter_of_sorted h.sorted hq, List.mem_filter, h.mem]

/-- **Elements change, or leave the line.** -/
theorem Lined.filterMap {f : α → Option α} (h : Lined r P l)
    (hr : ∀ a b a' b', P a → P b → f a = some a' → f b = some b' → r a b → r a' b')
    (hinj : ∀ a b c, P a → P b → f a = some c → f b = some c → a = b) :
    Lined r (fun c => ∃ a, P a ∧ f a = some c) (l.filterMap f) where
  sorted := by
    rw [List.pairwise_filterMap]
    refine h.sorted.imp_of_mem fun {a b} ha hb hab a' ha' b' hb' => ?_
    exact hr a b a' b' ((h.mem a).mp ha) ((h.mem b).mp hb) ha' hb' hab
  nodup := by
    refine List.pairwise_filterMap.mpr (h.nodup.imp_of_mem fun {a b} ha hb hne a' ha' b' hb' he => ?_)
    subst he
    exact hne (hinj a b a' ((h.mem a).mp ha) ((h.mem b).mp hb) ha' hb')
  mem c := by
    rw [List.mem_filterMap]
    exact exists_congr fun a => and_congr_left' (h.mem a)

theorem orderedInsert_congr {s : α → α → Prop} [DecidableRel r] [DecidableRel s] {x : α}
    (h : ∀ b ∈ l, s x b ↔ r x b) : l.orderedInsert s x = l.orderedInsert r x := by
  induction l with
  | nil => rfl
  | cons b l ih =>
      obtain ⟨hb, hl⟩ := List.forall_mem_cons.mp h
      rw [List.orderedInsert_cons, List.orderedInsert_cons, ih hl, if_congr hb rfl rfl]

/-- **One element joins the line**, at the place `s` gives it. -/
theorem Lined.insert [Std.Total r] [IsTrans α r] [DecidableRel r] {s : α → α → Prop}
    [DecidableRel s] (h : Lined r P l) {x : α} (hx : ¬ P x) (hs : ∀ b, P b → (s x b ↔ r x b)) :
    Lined r (fun a => a = x ∨ P a) (l.orderedInsert s x) := by
  rw [orderedInsert_congr fun b hb => hs b ((h.mem b).mp hb)]
  refine ⟨h.sorted.orderedInsert x l, ?_, fun a => ?_⟩
  · refine (List.perm_orderedInsert r x l).nodup_iff.mpr (List.nodup_cons.mpr ⟨?_, h.nodup⟩)
    exact fun hm => hx ((h.mem x).mp hm)
  · rw [List.mem_orderedInsert, h.mem]

end Lines

/-! ## 2. Levels -/

section Levels

variable {α κ : Type*} [LinearOrder κ] {key : α → κ} {l l' : List α} {ks ks' : List κ}

/-- Exactly the keys of `l`, in strictly decreasing order. -/
structure IsLevels (key : α → κ) (l : List α) (ks : List κ) : Prop where
  decreasing : ks.Pairwise (· > ·)
  members : ∀ k, k ∈ ks ↔ ∃ a ∈ l, key a = k

theorem IsLevels.nodup (h : IsLevels key l ks) : ks.Nodup :=
  h.decreasing.imp fun hgt => ne_of_gt hgt

theorem IsLevels.unique (h : IsLevels key l ks) (h' : IsLevels key l ks') : ks = ks' := by
  have hperm : ks.Perm ks' :=
    (List.perm_ext_iff_of_nodup h.nodup h'.nodup).mpr fun k => (h.members k).trans (h'.members k).symm
  exact hperm.eq_of_pairwise (fun a b _ _ hab hba => absurd hab (lt_asymm hba)) h.decreasing
    h'.decreasing

/-- As many levels as there are distinct keys. -/
theorem IsLevels.length_eq (h : IsLevels key l ks) : ks.length = (l.map key).toFinset.card := by
  rw [← List.toFinset_card_of_nodup h.nodup]
  congr 1
  ext k
  rw [List.mem_toFinset, List.mem_toFinset, List.mem_map, h.members]

theorem IsLevels.perm (h : IsLevels key l ks) (hp : l.Perm l') : IsLevels key l' ks :=
  ⟨h.decreasing, fun k => (h.members k).trans (by simp only [hp.mem_iff])⟩

theorem isLevels_nil : IsLevels key [] [] := ⟨List.Pairwise.nil, fun k => by simp⟩

theorem isLevels_singleton (a : α) : IsLevels key [a] [key a] :=
  ⟨List.pairwise_singleton _ _, fun k => by simp [eq_comm]⟩

theorem IsLevels.cons_same {a b : α} (h : IsLevels key (b :: l) ks) (hab : key a = key b) :
    IsLevels key (a :: b :: l) ks := by
  refine ⟨h.decreasing, fun k => (h.members k).trans ⟨?_, ?_⟩⟩
  · intro h
    obtain ⟨c, hc, rfl⟩ := h
    exact ⟨c, List.mem_cons_of_mem _ hc, rfl⟩
  · intro h
    obtain ⟨c, hc, rfl⟩ := h
    rcases List.mem_cons.mp hc with rfl | hc
    · exact ⟨b, List.mem_cons_self, hab.symm⟩
    · exact ⟨c, hc, rfl⟩

theorem IsLevels.cons_above {a : α} (h : IsLevels key l ks) (ha : ∀ b ∈ l, key b < key a) :
    IsLevels key (a :: l) (key a :: ks) := by
  refine ⟨List.Pairwise.cons (fun k hk => ?_) h.decreasing, fun k => ?_⟩
  · obtain ⟨b, hb, rfl⟩ := (h.members k).mp hk
    exact ha b hb
  · rw [List.mem_cons, h.members]
    simp only [List.exists_mem_cons_iff, eq_comm]

end Levels

/-! ## 3. Blocks -/

section Blocks

variable {α : Type*} {p : α → Bool}

/-- A head without `p`, then elements with `p`. -/
def IsBlock (p : α → Bool) (b : List α) : Prop :=
  ∃ a t, b = a :: t ∧ p a = false ∧ ∀ x ∈ t, p x = true

/-- Behind a block nothing with `p` follows at once. -/
theorem takeWhile_blocks {bs : List (List α)} (hb : ∀ b ∈ bs, IsBlock p b) :
    bs.flatten.takeWhile p = [] := by
  cases bs with
  | nil => rfl
  | cons b bs =>
      obtain ⟨a, t, rfl, ha, -⟩ := hb b List.mem_cons_self
      rw [List.flatten_cons, List.cons_append, List.takeWhile_cons, ha]
      rfl

/-- The first block ends where the elements with `p` do. -/
theorem takeWhile_block {t : List α} (ht : ∀ x ∈ t, p x = true) {bs : List (List α)}
    (hb : ∀ b ∈ bs, IsBlock p b) : (t ++ bs.flatten).takeWhile p = t := by
  rw [List.takeWhile_append_of_pos ht, takeWhile_blocks hb, List.append_nil]

/-- **The concatenation determines the blocks.** -/
theorem flatten_blocks_inj : ∀ {bs cs : List (List α)}, (∀ b ∈ bs, IsBlock p b) →
    (∀ c ∈ cs, IsBlock p c) → bs.flatten = cs.flatten → bs = cs
  | [], [], _, _, _ => rfl
  | [], c :: cs, _, hc, h => by
      obtain ⟨a, t, rfl, -, -⟩ := hc c List.mem_cons_self
      cases h
  | b :: bs, [], hb, _, h => by
      obtain ⟨a, t, rfl, -, -⟩ := hb b List.mem_cons_self
      cases h
  | b :: bs, c :: cs, hb, hc, h => by
      obtain ⟨a, t, rfl, -, ht⟩ := hb b List.mem_cons_self
      obtain ⟨a', t', rfl, -, ht'⟩ := hc c List.mem_cons_self
      have hbs := (List.forall_mem_cons.mp hb).2
      have hcs := (List.forall_mem_cons.mp hc).2
      rw [List.flatten_cons, List.flatten_cons, List.cons_append, List.cons_append] at h
      obtain ⟨rfl, h'⟩ := List.cons.inj h
      have e : t = t' := by
        rw [← takeWhile_block ht hbs, h', takeWhile_block ht' hcs]
      subst e
      rw [flatten_blocks_inj hbs hcs (List.append_cancel_left h')]

end Blocks

end SysProg.Lib
