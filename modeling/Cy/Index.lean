import Mathlib.Data.List.Pairwise
import Mathlib.Data.List.Perm.Basic
import Mathlib.Order.Basic
import Mathlib.Order.Lattice

/-!
# Ordered indices

Every index of the node — topics by hash, by subject-ID and by next gossip time, futures by
masked transfer-ID and by deadline — is a `cavl2` tree: a balanced search tree searched with a
comparator `cmp(key, node)` that returns zero on a match, a positive value to descend right and a
negative value to descend left. The tree library itself is not among the sources; we model it
from its contract in the spec ("find-by-key, insert-if-absent (with a factory producing a node
for the new element), remove, minimum, next-greater"; two comparators "never return equal so
duplicates are preserved in FIFO order").

## Representation

A tree is represented by its in-order list of nodes. Search walks the list the way a descent
walks the tree: it skips nodes that compare below the key, stops at a match, and gives up at the
first node above the key. On a list that is sorted for the comparator — the only lists the node
ever builds, which is what the table invariants prove — this is exactly the tree's behaviour,
and insertion lands where the tree would put the new leaf.

The keys are not stored: as in the source, a comparator computes the key of a node from the
node's current fields. An index stays sorted only as long as nobody changes the key of a node
that is still in it, which is the discipline `allocate_topic` and `update_last_gossip_time`
follow ("the counter MUST NOT BE CHANGED without removing the topic from the subject-ID index").
-/

namespace Cy

namespace Index

variable {α β : Type}

/-- `cavl2_find`. -/
def find (cmp : α → Ordering) : List α → Option α
  | [] => none
  | q :: l =>
    match cmp q with
    | .lt => none
    | .eq => some q
    | .gt => find cmp l

/-- `cavl2_find_or_insert`: the node that matches, or the new node inserted where the search
gave up. Returns the node found or inserted, and the new in-order list. -/
def findOrInsert (cmp : α → Ordering) (new : α) : List α → α × List α
  | [] => (new, [new])
  | q :: l =>
    match cmp q with
    | .lt => (new, new :: q :: l)
    | .eq => (q, q :: l)
    | .gt => ((findOrInsert cmp new l).1, q :: (findOrInsert cmp new l).2)

/-- `cavl2_min`. -/
def min (l : List α) : Option α := l.head?

/-- `cavl2_next_greater`: the node that follows `q` in order, or none when `q` is the last. -/
def nextGreater [DecidableEq α] (q : α) : List α → Option α
  | [] => none
  | a :: l => if a = q then l.head? else nextGreater q l

/-- A list is a valid index for key `k` and order `r`. -/
abbrev Sorted (r : β → β → Prop) (k : α → β) (l : List α) : Prop :=
  l.Pairwise fun a b ↦ r (k a) (k b)

/-! ## Generic facts -/

theorem findOrInsert_of_find_some {cmp : α → Ordering} {new q : α} :
    ∀ {l : List α}, find cmp l = some q → findOrInsert cmp new l = (q, l)
  | [], h => by simp [find] at h
  | a :: l, h => by
    cases hc : cmp a <;> simp only [find, hc, reduceCtorEq, Option.some.injEq] at h <;>
      simp only [findOrInsert, hc]
    · rw [h]
    · rw [findOrInsert_of_find_some h]

theorem findOrInsert_of_find_none {cmp : α → Ordering} {n : α} :
    ∀ {l : List α}, find cmp l = none →
      (findOrInsert cmp n l).1 = n ∧ (findOrInsert cmp n l).2.Perm (n :: l)
  | [], _ => by simp [findOrInsert]
  | a :: l, h => by
    cases hc : cmp a <;> simp only [find, hc, reduceCtorEq] at h <;> simp only [findOrInsert, hc]
    · simp
    · obtain ⟨h1, h2⟩ := findOrInsert_of_find_none (n := n) h
      exact ⟨h1, (h2.cons a).trans (.swap _ _ _)⟩

/-- When the node that comes back is not the new one, the search found it and the index is
unchanged. -/
theorem findOrInsert_of_ne {cmp : α → Ordering} {new : α} {l : List α}
    (h : (findOrInsert cmp new l).1 ≠ new) :
    find cmp l = some (findOrInsert cmp new l).1 ∧ (findOrInsert cmp new l).2 = l := by
  cases hf : find cmp l with
  | none => exact absurd (findOrInsert_of_find_none hf).1 h
  | some q => rw [findOrInsert_of_find_some hf]; exact ⟨rfl, rfl⟩

theorem mem_findOrInsert {cmp : α → Ordering} {new : α} {l : List α} :
    (findOrInsert cmp new l).1 ∈ (findOrInsert cmp new l).2 := by
  cases h : find cmp l with
  | none =>
    obtain ⟨h1, h2⟩ := findOrInsert_of_find_none (n := new) h
    rw [h1, h2.mem_iff]; exact List.mem_cons_self _ _
  | some q =>
    rw [findOrInsert_of_find_some h]
    induction l with
    | nil => simp [find] at h
    | cons a l ih =>
      unfold find at h
      split at h
      · cases h
      · cases h; exact List.mem_cons_self _ _
      · exact List.mem_cons_of_mem _ (ih h)

theorem find_mem {cmp : α → Ordering} {q : α} : ∀ {l : List α}, find cmp l = some q → q ∈ l
  | [], h => by simp [find] at h
  | a :: l, h => by
    unfold find at h
    split at h
    · cases h
    · cases h; exact List.mem_cons_self _ _
    · exact List.mem_cons_of_mem _ (find_mem h)

theorem find_cmp {cmp : α → Ordering} {q : α} : ∀ {l : List α}, find cmp l = some q → cmp q = .eq
  | [], h => by simp [find] at h
  | a :: l, h => by
    unfold find at h
    split at h
    · cases h
    · cases h; assumption
    · exact find_cmp h

theorem find_eq_none_of_findOrInsert {cmp : α → Ordering} {new : α} {l : List α} (hn : new ∉ l)
    (h : (findOrInsert cmp new l).1 = new) : find cmp l = none := by
  cases hf : find cmp l with
  | none => rfl
  | some q =>
    rw [findOrInsert_of_find_some hf] at h
    exact absurd (h ▸ find_mem hf) hn

theorem min_mem {l : List α} {a : α} (h : min l = some a) : a ∈ l := by
  cases l with
  | nil => cases h
  | cons b l => cases h; exact List.mem_cons_self _ _

/-! ## Removal -/

theorem Sorted.erase [DecidableEq α] {r : β → β → Prop} {k : α → β} {l : List α}
    (h : Sorted r k l) (p : α) : Sorted r k (l.erase p) :=
  List.Pairwise.sublist (List.erase_sublist _ _) h

/-- Removing the node just inserted gives the index back. -/
theorem erase_findOrInsert [DecidableEq α] {cmp : α → Ordering} {new : α} :
    ∀ {l : List α}, new ∉ l → (findOrInsert cmp new l).2.erase new = l
  | [], _ => by simp [findOrInsert]
  | a :: l, h => by
    have ha : a ≠ new := fun e ↦ h (e ▸ List.mem_cons_self _ _)
    have hl : new ∉ l := fun h' ↦ h (List.mem_cons_of_mem _ h')
    simp only [findOrInsert]
    split <;> simp [List.erase_cons, ha, List.erase_of_not_mem hl, erase_findOrInsert hl]

/-- An index reads only the keys of its own nodes. -/
theorem Sorted.congr {r : β → β → Prop} {k k' : α → β} {l : List α} (h : Sorted r k l)
    (hk : ∀ q ∈ l, k' q = k q) : Sorted r k' l :=
  List.Pairwise.imp_of_mem (fun ha hb hr ↦ by rwa [hk _ ha, hk _ hb]) h

/-- A strictly sorted index has no duplicates. -/
theorem Sorted.nodup [Preorder β] {k : α → β} {l : List α} (h : Sorted (· < ·) k l) : l.Nodup :=
  List.Pairwise.imp (fun h ↦ ne_of_apply_ne k (ne_of_lt h)) h

/-! ## Keyed indices -/

variable [LinearOrder β]

/-- A comparator of a keyed index (`cavl_comp_topic_hash`, `cavl_comp_topic_subject_id`,
`cavl_comp_future_transfer_id_masked`): the sign of `key - k(node)`. -/
def keyCmp (k : α → β) (x : β) (q : α) : Ordering := compare x (k q)

/-- A comparator that never returns equal (`cavl_comp_topic_gossip_time`,
`cavl_comp_future_deadline`): `+1` when `key >= k(node)`, else `-1`. -/
def stableCmp (k : α → β) (x : β) (q : α) : Ordering := if k q ≤ x then .gt else .lt

section Keyed

variable {k : α → β}

theorem keyCmp_eq_eq {x : β} {q : α} : keyCmp k x q = .eq ↔ k q = x := by
  rw [keyCmp, compare_eq_iff_eq, eq_comm]

/-- On a sorted keyed index, search finds a node exactly when one has the key. -/
theorem find_keyCmp_eq_none {x : β} :
    ∀ {l : List α}, Sorted (· < ·) k l → (find (keyCmp k x) l = none ↔ ∀ q ∈ l, k q ≠ x)
  | [], _ => by simp [find]
  | a :: l, hs => by
    replace hs := List.pairwise_cons.1 hs
    unfold find
    simp only [keyCmp, List.mem_cons, forall_eq_or_imp]
    rcases lt_trichotomy x (k a) with h | h | h
    · rw [compare_lt_iff_lt.2 h]
      simp only [true_iff]
      exact ⟨h.ne', fun q hq ↦ (lt_trans h (hs.1 q hq)).ne'⟩
    · rw [compare_eq_iff_eq.2 h]
      simp [h]
    · rw [compare_gt_iff_gt.2 h]
      simp only [find_keyCmp_eq_none hs.2]
      exact ⟨fun h' ↦ ⟨h.ne, h'⟩, fun h' ↦ h'.2⟩

theorem find_keyCmp_of_mem {x : β} {l : List α} (hs : Sorted (· < ·) k l) {q : α} (hq : q ∈ l)
    (hk : k q = x) : find (keyCmp k x) l = some q := by
  cases h : find (keyCmp k x) l with
  | none => exact absurd hk (((find_keyCmp_eq_none hs).1 h) q hq)
  | some q' =>
    have hd : l.Pairwise fun a b ↦ k a ≠ k b := List.Pairwise.imp ne_of_lt hs
    by_contra hne
    exact List.Pairwise.«forall» (fun _ _ h ↦ Ne.symm h) hd (find_mem h) hq
      (fun e ↦ hne (congrArg some e)) ((keyCmp_eq_eq.1 (find_cmp h)).trans hk.symm)

/-- A sorted keyed index holds at most one node per key. -/
theorem eq_of_key_eq {l : List α} (hs : Sorted (· < ·) k l) {a b : α} (ha : a ∈ l) (hb : b ∈ l)
    (e : k a = k b) : a = b :=
  Option.some_injective _ ((find_keyCmp_of_mem hs ha e).symm.trans (find_keyCmp_of_mem hs hb rfl))

/-- The first node of a sorted keyed index has the least key. -/
theorem min_le {l : List α} (hs : Sorted (· < ·) k l) {a : α} (ha : min l = some a) :
    ∀ b ∈ l, k a ≤ k b := by
  cases l with
  | nil => cases ha
  | cons a' l =>
    cases ha
    intro b hb
    rcases List.mem_cons.1 hb with rfl | hb
    · exact le_rfl
    · exact ((List.pairwise_cons.1 hs).1 b hb).le

/-- In a sorted keyed index, the node after `q` has the least key above `q`'s. -/
theorem nextGreater_some [DecidableEq α] {q u : α} :
    ∀ {l : List α}, Sorted (· < ·) k l → q ∈ l → nextGreater q l = some u →
      u ∈ l ∧ k q < k u ∧ ∀ b ∈ l, k q < k b → k u ≤ k b
  | [], _, hq, _ => absurd hq (List.not_mem_nil _)
  | a :: l, hs, hq, h => by
    obtain ⟨hlt, hs⟩ := List.pairwise_cons.1 hs
    unfold nextGreater at h
    split_ifs at h with he
    · subst he
      cases l with
      | nil => cases h
      | cons u' l =>
        cases h
        refine ⟨List.mem_cons_of_mem _ (List.mem_cons_self _ _), hlt _ (List.mem_cons_self _ _),
          fun b hb hab ↦ ?_⟩
        rcases List.mem_cons.1 hb with rfl | hb
        · exact absurd hab (lt_irrefl _)
        rcases List.mem_cons.1 hb with rfl | hb
        · exact le_rfl
        · exact ((List.pairwise_cons.1 hs).1 b hb).le
    · have hq' : q ∈ l := (List.mem_cons.1 hq).resolve_left (Ne.symm he)
      obtain ⟨h₁, h₂, h₃⟩ := nextGreater_some hs hq' h
      refine ⟨List.mem_cons_of_mem _ h₁, h₂, fun b hb hqb ↦ ?_⟩
      rcases List.mem_cons.1 hb with rfl | hb
      · exact absurd (hlt q hq') (lt_asymm hqb)
      · exact h₃ b hb hqb

/-- In a sorted keyed index, there is no node after the one with the greatest key. -/
theorem nextGreater_none [DecidableEq α] {q : α} :
    ∀ {l : List α}, Sorted (· < ·) k l → q ∈ l → nextGreater q l = none → ∀ b ∈ l, k b ≤ k q
  | [], _, hq, _ => absurd hq (List.not_mem_nil _)
  | a :: l, hs, hq, h => by
    obtain ⟨hlt, hs⟩ := List.pairwise_cons.1 hs
    unfold nextGreater at h
    split_ifs at h with he
    · subst he
      cases l with
      | nil => simp
      | cons => cases h
    · have hq' : q ∈ l := (List.mem_cons.1 hq).resolve_left (Ne.symm he)
      intro b hb
      rcases List.mem_cons.1 hb with rfl | hb
      · exact (hlt q hq').le
      · exact nextGreater_none hs hq' h b hb

/-- Insertion into a sorted keyed index, of a node whose key is absent, keeps it sorted. -/
theorem sorted_findOrInsert_keyCmp {new : α} {x : β} (hx : k new = x) :
    ∀ {l : List α}, Sorted (· < ·) k l → find (keyCmp k x) l = none →
      Sorted (· < ·) k (findOrInsert (keyCmp k x) new l).2
  | [], _, _ => by simp [findOrInsert]
  | a :: l, hs, hn => by
    subst hx
    have hall := (find_keyCmp_eq_none hs).1 hn
    replace hs := List.pairwise_cons.1 hs
    unfold findOrInsert
    simp only [keyCmp]
    rcases lt_trichotomy (k new) (k a) with h | h | h
    · rw [compare_lt_iff_lt.2 h]
      exact List.Pairwise.cons (fun q hq ↦ by
        rcases List.mem_cons.1 hq with rfl | hq
        · exact h
        · exact lt_trans h (hs.1 q hq)) (List.Pairwise.cons hs.1 hs.2)
    · exact absurd h.symm (hall a (List.mem_cons_self _ _))
    · rw [compare_gt_iff_gt.2 h]
      have hn' : find (keyCmp k (k new)) l = none :=
        (find_keyCmp_eq_none hs.2).2 fun q hq ↦ hall q (List.mem_cons_of_mem _ hq)
      refine List.Pairwise.cons (fun q hq ↦ ?_) (sorted_findOrInsert_keyCmp rfl hs.2 hn')
      rcases List.mem_cons.1 ((findOrInsert_of_find_none hn').2.mem_iff.1 hq) with rfl | hq
      · exact h
      · exact hs.1 q hq

/-- A key above the keys of `l` and below those of `m` is inserted between them. -/
theorem findOrInsert_keyCmp_append {x : β} {new : α} {m : List α}
    (hm : ∀ b ∈ m.head?, x < k b) :
    ∀ {l : List α}, (∀ a ∈ l, k a < x) →
      findOrInsert (keyCmp k x) new (l ++ m) = (new, l ++ new :: m)
  | [], _ => by
    cases m with
    | nil => rfl
    | cons b m => simp only [List.nil_append, findOrInsert, keyCmp, compare_lt_iff_lt.2 (hm b rfl)]
  | a :: l, hl => by
    simp only [List.cons_append, findOrInsert, keyCmp, List.append_eq,
      compare_gt_iff_gt.2 (hl a (List.mem_cons_self _ _)),
      findOrInsert_keyCmp_append hm fun b hb ↦ hl b (List.mem_cons_of_mem _ hb)]

/-- A key above every key of the index is inserted last. -/
theorem findOrInsert_keyCmp_of_lt {x : β} {new : α} {l : List α} (hl : ∀ a ∈ l, k a < x) :
    findOrInsert (keyCmp k x) new l = (new, l ++ [new]) := by
  conv_lhs => rw [← List.append_nil l]
  exact findOrInsert_keyCmp_append (by simp) hl

end Keyed

/-! ## Indices with duplicate keys -/

section Stable

variable {k : α → β}

theorem find_stableCmp (x : β) : ∀ (l : List α), find (stableCmp k x) l = none
  | [] => rfl
  | a :: l => by
    unfold find stableCmp
    split_ifs
    · exact find_stableCmp x l
    · rfl

theorem findOrInsert_stableCmp (x : β) (new : α) (l : List α) :
    (findOrInsert (stableCmp k x) new l).1 = new ∧
      (findOrInsert (stableCmp k x) new l).2.Perm (new :: l) :=
  findOrInsert_of_find_none (find_stableCmp x l)

/-- Insertion goes past every node whose key is at most the new one and stops before the first
greater one: a node joins the back of the nodes of its key, which stay in arrival order. -/
theorem findOrInsert_stableCmp_eq (x : β) (new : α) : ∀ l : List α,
    (findOrInsert (stableCmp k x) new l).2 =
      l.takeWhile (fun q ↦ k q ≤ x) ++ new :: l.dropWhile fun q ↦ k q ≤ x
  | [] => rfl
  | a :: l => by
    by_cases h : k a ≤ x
    · have hc : stableCmp k x a = .gt := if_pos h
      simp only [findOrInsert, hc, List.takeWhile_cons, List.dropWhile_cons, h, decide_True,
        ↓reduceIte, findOrInsert_stableCmp_eq x new l, List.cons_append]
    · have hc : stableCmp k x a = .lt := if_neg h
      simp only [findOrInsert, hc, List.takeWhile_cons, List.dropWhile_cons, h, decide_False,
        Bool.false_eq_true, ↓reduceIte, List.nil_append]

/-- Insertion keeps a non-decreasing index non-decreasing; equal keys stay in arrival order. -/
theorem sorted_findOrInsert_stableCmp {new : α} {x : β} (hx : k new = x) :
    ∀ {l : List α}, Sorted (· ≤ ·) k l → Sorted (· ≤ ·) k (findOrInsert (stableCmp k x) new l).2
  | [], _ => by simp [findOrInsert]
  | a :: l, hs => by
    subst hx
    replace hs := List.pairwise_cons.1 hs
    unfold findOrInsert stableCmp
    split_ifs with h
    · refine List.Pairwise.cons (fun q hq ↦ ?_) (sorted_findOrInsert_stableCmp rfl hs.2)
      rcases List.mem_cons.1 ((findOrInsert_stableCmp (k new) new l).2.mem_iff.1 hq) with rfl | hq
      · exact h
      · exact hs.1 q hq
    · have h' : k new ≤ k a := le_of_lt (not_le.1 h)
      exact List.Pairwise.cons (fun q hq ↦ by
        rcases List.mem_cons.1 hq with rfl | hq
        · exact h'
        · exact le_trans h' (hs.1 q hq)) (List.Pairwise.cons hs.1 hs.2)

/-- On a non-decreasing index, the front of the nodes whose key is below `x` holds every node
whose key is below `x`: the nodes that repeated removal of the minimum visits. -/
theorem mem_takeWhile_lt {x : β} {a : α} :
    ∀ {l : List α}, Sorted (· ≤ ·) k l → (a ∈ l.takeWhile (fun b ↦ k b < x) ↔ a ∈ l ∧ k a < x)
  | [], _ => by simp
  | b :: l, hs => by
    obtain ⟨hb, hl⟩ := List.pairwise_cons.1 hs
    by_cases hlt : k b < x
    · simp only [List.takeWhile_cons, hlt, decide_True, ↓reduceIte, List.mem_cons,
        mem_takeWhile_lt hl]
      constructor
      · rintro (rfl | ⟨ha, h⟩)
        · exact ⟨.inl rfl, hlt⟩
        · exact ⟨.inr ha, h⟩
      · rintro ⟨rfl | ha, h⟩
        · exact .inl rfl
        · exact .inr ⟨ha, h⟩
    · simp only [List.takeWhile_cons, hlt, decide_False, Bool.false_eq_true, ↓reduceIte,
        List.not_mem_nil, List.mem_cons, false_iff, not_and, not_lt]
      rintro (rfl | ha)
      · exact not_lt.1 hlt
      · exact (not_lt.1 hlt).trans (hb a ha)

/-- The front of the nodes whose key is below `y ≥ x` is the front of those below `x`, followed
by the front of the rest below `y`: two sweeps, at `x` and then at `y`, visit what one sweep at
`y` visits. -/
theorem takeWhile_lt_of_le {x y : β} (h : x ≤ y) : ∀ l : List α,
    l.takeWhile (fun b ↦ k b < y) =
      l.takeWhile (fun b ↦ k b < x) ++ (l.dropWhile fun b ↦ k b < x).takeWhile fun b ↦ k b < y
  | [] => rfl
  | b :: l => by
    by_cases hb : k b < x
    · simp [List.takeWhile_cons, List.dropWhile_cons, hb, hb.trans_le h, takeWhile_lt_of_le h l]
    · simp [List.takeWhile_cons, List.dropWhile_cons, hb]

end Stable

end Index

end Cy
