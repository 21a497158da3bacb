import Mathlib.Order.Basic
import Mathlib.Tactic.Ring

/-!
# Constants, subject-IDs and the arbitration rank

The numeric core of the topic allocator. A topic is placed by its 64-bit name hash and its
64-bit eviction counter; both are `uint64_t` in the source and the subject-ID is computed in
that type, so the sum `hash + evictions` wraps at `2⁶⁴` before it is reduced modulo the size of
the dynamic pool. We keep the wrap: it is the one place where the 64-bit width changes the
probe sequence of a topic.

## The rank

`left_wins` is a three-level lexicographic comparison: pinned beats dynamic, then the larger
`floor(log2(age))` wins, then the smaller hash. We encode it once as a natural number `rank`,
with the three levels in disjoint bit ranges, and prove `leftWins_iff_rank_lt`. Every later
argument about who displaces whom (that arbitration is a strict total order on distinct hashes,
that a displaced topic ranks strictly below the displacer) goes through `rank` and `omega`.
-/

namespace Cy

/-! ## Constants -/

/-- `CY_TOPIC_NAME_MAX`. -/
def topicNameMax : Nat := 96

/-- `CY_TOPIC_SUBJECT_COUNT`: the size of the dynamically allocated subject-ID pool. -/
def topicSubjectCount : Nat := 6144

/-- `CY_TOTAL_SUBJECT_COUNT`: `1 << CY_SUBJECT_BITS`; hashes below it are pinned. -/
def totalSubjectCount : Nat := 8192

/-- `CY_SUBJECT_ID_INVALID` and `CY_NODE_ID_INVALID`. -/
def subjectIdInvalid : Nat := 0xFFFF

/-- `CY_NODE_ID_INVALID`. -/
def nodeIdInvalid : Nat := 0xFFFF

/-- `MEGA`: microseconds per second. -/
def mega : Int := 1000000

/-! ## Arithmetic helpers -/

/-- `__builtin_clzll` of a word with no bit set from `n` up: the zero bits above its highest
set bit, counted in 64 bits, found by scanning down from bit `n - 1`. -/
def clzll (x : BitVec 64) : Nat → Nat
  | 0 => 64
  | n + 1 => if x.getLsbD n then 63 - n else clzll x n

/-- `log2_floor`: `63 - __builtin_clzll(x)`, and `-1` for zero so that the comparison stays
linear. -/
def log2Floor (x : BitVec 64) : Int :=
  if x = 0 then -1 else 63 - (clzll x 64 : Int)

/-- `random_uint`: given the raw output `r` of `random_u64`, a value in `[min, max)` when
`min < max` (the source's comment calls the limits inclusive), else `min`. -/
def randomUint (r : BitVec 64) (min max : Nat) : Nat :=
  if min < max then r.toNat % (max - min) + min else min

/-- A draw from `[0, n)` stays below `n`. -/
theorem randomUint_lt {r : BitVec 64} {n : Nat} (hn : 0 < n) : randomUint r 0 n < n := by
  unfold randomUint
  rw [if_pos hn]; have := Nat.mod_lt r.toNat (show 0 < n - 0 by omega); omega

/-- A draw with the limits `0` and `n - 1` indexes one of `n` positive items. -/
theorem randomUint_lt_of_pos {r : BitVec 64} {n : Nat} (hn : 0 < n) :
    randomUint r 0 (n - 1) < n := by
  unfold randomUint
  split
  · have := Nat.mod_lt r.toNat (show 0 < n - 1 - 0 by omega); omega
  · omega

/-- Counting one increment of `e` and then `j` more is counting `j + 1` from `e`, modulo `2⁶⁴`. -/
theorem add_one_add_ofNat (e : BitVec 64) (j : Nat) :
    e + 1 + BitVec.ofNat 64 j = e + BitVec.ofNat 64 (j + 1) := by
  rw [BitVec.add_assoc]
  congr 1
  apply BitVec.eq_of_toNat_eq; simp [Nat.add_comm]

/-- `log2_floor x + 1` as a natural number: `0` for zero, `floor(log2 x) + 1` otherwise. -/
def ageLevel (x : BitVec 64) : Nat := if x.toNat = 0 then 0 else Nat.log2 x.toNat + 1

/-- The scan finds the highest set bit, which is `floor(log2 x)`. -/
theorem clzll_eq_log2 {x : BitVec 64} (hx : x.toNat ≠ 0) :
    ∀ n, x.toNat < 2 ^ n → clzll x n = 63 - Nat.log2 x.toNat
  | 0, h => absurd (Nat.lt_one_iff.1 h) hx
  | n + 1, h => by
    unfold clzll
    split
    · rename_i hb
      have hlog : Nat.log2 x.toNat = n := le_antisymm (Nat.lt_succ_iff.1 ((Nat.log2_lt hx).2 h))
        ((Nat.le_log2 hx).2 (Nat.testBit_implies_ge hb))
      omega
    · rename_i hb
      refine clzll_eq_log2 hx n (lt_of_not_le fun hge ↦ hb ?_)
      -- bit `n` of a value in `[2 ^ n, 2 ^ (n + 1))` is set
      have hsplit : x.toNat = 2 ^ n + (x.toNat - 2 ^ n) := by omega
      have hlow : x.toNat - 2 ^ n < 2 ^ n := by rw [pow_succ] at h; omega
      have := Nat.testBit_two_pow_add_eq (x.toNat - 2 ^ n) n
      rwa [← hsplit, Nat.testBit_lt_two_pow hlow] at this

theorem log2Floor_eq_ageLevel (x : BitVec 64) : log2Floor x = (ageLevel x : Int) - 1 := by
  unfold log2Floor ageLevel
  by_cases h : x.toNat = 0
  · have hx : x = 0 := BitVec.eq_of_toNat_eq (by simpa using h)
    simp [hx]
  · rw [if_neg fun e ↦ h (by rw [e]; rfl), if_neg h, clzll_eq_log2 h 64 x.isLt]
    have := (Nat.log2_lt h).2 x.isLt
    omega

theorem ageLevel_le (x : BitVec 64) : ageLevel x ≤ 64 := by
  unfold ageLevel
  split
  · omega
  · have := (Nat.log2_lt (n := x.toNat) (k := 64) ‹_›).2 x.isLt
    omega

/-- `floor(log2 ·)` is monotone, which is what makes `max` a merge that never lowers a rank. -/
theorem ageLevel_mono {x y : BitVec 64} (h : x.toNat ≤ y.toNat) : ageLevel x ≤ ageLevel y := by
  unfold ageLevel
  split
  · omega
  · rename_i hx
    have hy : y.toNat ≠ 0 := by omega
    have := (Nat.le_log2 hy).2 (le_trans (Nat.log2_self_le hx) h)
    rw [if_neg hy]
    omega

/-! ## Pinned topics and subject-IDs -/

/-- `is_pinned`: pinned topic hashes are the subject-IDs themselves. -/
def isPinned (hash : BitVec 64) : Bool := decide (hash.toNat < totalSubjectCount)

/-- `topic_get_subject_id` (without `CY_CONFIG_PREFERRED_TOPIC_OVERRIDE`): a pinned hash is its
own subject-ID (the `uint16_t` cast is exact since the hash is below `8192`); otherwise the
wrapped 64-bit sum `hash + evictions` modulo the pool size. -/
def topicGetSubjectId (hash evictions : BitVec 64) : Nat :=
  if isPinned hash then hash.toNat else (hash + evictions).toNat % topicSubjectCount

theorem topicGetSubjectId_of_pinned {hash : BitVec 64} (h : isPinned hash) (e : BitVec 64) :
    topicGetSubjectId hash e = hash.toNat := by
  simp [topicGetSubjectId, h]

theorem topicGetSubjectId_of_not_pinned {hash : BitVec 64} (h : isPinned hash = false)
    (e : BitVec 64) :
    topicGetSubjectId hash e = (hash.toNat + e.toNat) % 2 ^ 64 % topicSubjectCount := by
  simp [topicGetSubjectId, h, BitVec.toNat_add]

theorem topicGetSubjectId_lt (hash e : BitVec 64) :
    topicGetSubjectId hash e < totalSubjectCount := by
  unfold topicGetSubjectId isPinned topicSubjectCount totalSubjectCount
  split
  · exact of_decide_eq_true ‹_›
  · omega

/-- Two pinned topics share a subject-ID only if they share the hash. -/
theorem hash_eq_of_pinned_of_subjectId_eq {h₁ h₂ e₁ e₂ : BitVec 64} (p₁ : isPinned h₁)
    (p₂ : isPinned h₂) (h : topicGetSubjectId h₁ e₁ = topicGetSubjectId h₂ e₂) : h₁ = h₂ := by
  rw [topicGetSubjectId_of_pinned p₁, topicGetSubjectId_of_pinned p₂] at h
  exact BitVec.eq_of_toNat_eq h

/-! ## Arbitration -/

/-- `left_wins`, with the left topic given by its age and hash. Only meaningful on a subject-ID
conflict, where the hashes differ. -/
def leftWins (lAge lHash rAge rHash : BitVec 64) : Bool :=
  if isPinned lHash ≠ isPinned rHash then isPinned lHash
  else if log2Floor lAge = log2Floor rAge then decide (lHash < rHash)
  else decide (log2Floor lAge > log2Floor rAge)

/-- The arbitration rank: pinned first, then `floor(log2 age)`, then the complement of the
hash. Each level dominates the ones below it. -/
def rank (age hash : BitVec 64) : Nat :=
  (if isPinned hash then 2 ^ 72 else 0) + ageLevel age * 2 ^ 64 + (2 ^ 64 - 1 - hash.toNat)

/-- **The arbitration rule is the rank order.** -/
theorem leftWins_iff_rank_lt (lAge lHash rAge rHash : BitVec 64) :
    leftWins lAge lHash rAge rHash = true ↔ rank rAge rHash < rank lAge lHash := by
  have := ageLevel_le lAge
  have := ageLevel_le rAge
  have := lHash.isLt
  have := rHash.isLt
  unfold leftWins rank
  rw [log2Floor_eq_ageLevel, log2Floor_eq_ageLevel]
  cases isPinned lHash <;> cases isPinned rHash <;> simp only [ne_eq, reduceCtorEq,
    not_true_eq_false, not_false_eq_true, if_true, if_false, Bool.false_eq_true]
  case false.true => simp only [false_iff, not_lt]; omega
  case true.false => simp only [true_iff]; omega
  all_goals split_ifs <;> simp only [decide_eq_true_iff, BitVec.lt_def] <;> omega

theorem leftWins_asymm {a h a' h' : BitVec 64} (hw : leftWins a h a' h' = true) :
    leftWins a' h' a h = false := by
  rw [leftWins_iff_rank_lt] at hw
  rw [← Bool.not_eq_true, leftWins_iff_rank_lt]
  omega

theorem leftWins_trans {a h a' h' a'' h'' : BitVec 64} (h₁ : leftWins a h a' h' = true)
    (h₂ : leftWins a' h' a'' h'' = true) : leftWins a h a'' h'' = true := by
  rw [leftWins_iff_rank_lt] at *
  omega

/-- On distinct hashes the rank is injective, so arbitration always has a winner. -/
theorem rank_injective {a h a' h' : BitVec 64} (hh : h ≠ h') : rank a h ≠ rank a' h' := by
  have := ageLevel_le a
  have := ageLevel_le a'
  have hne : h.toNat ≠ h'.toNat := fun e ↦ hh (BitVec.eq_of_toNat_eq e)
  have := h.isLt
  have := h'.isLt
  unfold rank
  split <;> split <;> omega

theorem leftWins_total {a h a' h' : BitVec 64} (hh : h ≠ h') :
    leftWins a h a' h' = true ∨ leftWins a' h' a h = true := by
  rw [leftWins_iff_rank_lt, leftWins_iff_rank_lt]
  have : rank a h ≠ rank a' h' := rank_injective hh
  omega

/-- On distinct hashes exactly one side wins. -/
theorem leftWins_eq_not {a h a' h' : BitVec 64} (hh : h ≠ h') :
    leftWins a h a' h' = !leftWins a' h' a h := by
  rcases leftWins_total hh with w | w
  · rw [w, leftWins_asymm w]; rfl
  · rw [w, leftWins_asymm w]; rfl

/-- An older topic never ranks lower. -/
theorem rank_mono_age {x y : BitVec 64} (h : BitVec 64) (hxy : x.toNat ≤ y.toNat) :
    rank x h ≤ rank y h := by
  have := ageLevel_mono hxy
  unfold rank
  split <;> omega

end Cy
