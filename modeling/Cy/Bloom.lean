import Cy.State

/-!
# The node-ID Bloom filter

A set-only Bloom filter over `n_bits` bits stored in 64-bit words, with a single hash function
(the value modulo `n_bits`), used as a tombstone set of the node-IDs seen on the bus. Besides the
words the filter keeps `popcount`, the number of bits set, which `mark_neighbor` reads to decide
when the filter is congested.

## The invariant

`popcount` is bookkeeping: `bloom64_set` increments it exactly when it sets a bit that was clear,
and `bloom64_purge` zeroes it with the words. `Bloom64.Valid` states that it is the number of
set bits among the `n_bits / 64` words and at most `n_bits`; `set_valid` and `purge_valid` are
the step lemmas, and `pickNodeId_valid` and `markNeighbor_valid` follow from them.

## Picking a node-ID

`pick_node_id` searches the first `(min(node_id_max, n_bits) + 63) / 64` words cyclically for one
with a clear bit, then that word cyclically for a clear bit. When it returns, the node-ID is below
`node_id_max` and set in the filter, and it was clear whenever a clear node-ID below
`min(node_id_max, n_bits)` exists (`pickNodeId_spec`). It does not always return: when
`node_id_max` is not a multiple of `64`, the last word searched holds bits of node-IDs at or above
`node_id_max`, and a search that lands on one of them fails the assertion
`node_id < node_id_max` while a lower node-ID is free (`pickNodeId_misses_free`).
-/

namespace Cy

/-! ## Counting bits -/

/-- The number of set bits of `w` among its lowest `n`. -/
def bitCount (w : BitVec 64) : Nat → Nat
  | 0 => 0
  | n + 1 => bitCount w n + if w.getLsbD n then 1 else 0

/-- The number of set bits among the first `n` words of `s`. -/
def wordsPopcount (s : Nat → BitVec 64) : Nat → Nat
  | 0 => 0
  | n + 1 => wordsPopcount s n + bitCount (s n) 64

theorem bitCount_le (w : BitVec 64) (n : Nat) : bitCount w n ≤ n := by
  induction n with
  | zero => rfl
  | succ n ih => simp only [bitCount]; split <;> omega

theorem bitCount_zero (n : Nat) : bitCount 0 n = 0 := by
  induction n with
  | zero => rfl
  | succ n ih => rw [bitCount, ih]; simp

theorem getLsbD_one_shiftLeft {k : Nat} (hk : k < 64) (j : Nat) :
    (1#64 <<< k).getLsbD j = decide (j = k) := by
  simp only [BitVec.getLsbD_shiftLeft, BitVec.getLsbD_one]
  by_cases h : j = k
  · subst h; simp [hk]
  · simp [h]; omega

/-- Setting a clear bit `k` adds one to the count of every range that contains it. -/
theorem bitCount_set {w : BitVec 64} {k : Nat} (hk : k < 64) (hw : w.getLsbD k = false) :
    ∀ n, bitCount (w ||| 1#64 <<< k) n = bitCount w n + if k < n then 1 else 0
  | 0 => by simp [bitCount]
  | n + 1 => by
    simp only [bitCount, bitCount_set hk hw n, BitVec.getLsbD_or, getLsbD_one_shiftLeft hk]
    by_cases hn : n = k
    · subst hn; simp [hw]
    · by_cases h : k < n
      · simp [hn, h, show k < n + 1 by omega]; omega
      · simp [hn, h, show ¬k < n + 1 by omega]

theorem wordsPopcount_le (s : Nat → BitVec 64) : ∀ n, wordsPopcount s n ≤ 64 * n
  | 0 => le_rfl
  | n + 1 => by
    have := bitCount_le (s n) 64
    have := wordsPopcount_le s n
    simp only [wordsPopcount]; omega

theorem wordsPopcount_update (s : Nat → BitVec 64) {i : Nat} (v : BitVec 64) :
    ∀ n, wordsPopcount (Function.update s i v) n + (if i < n then bitCount (s i) 64 else 0) =
      wordsPopcount s n + if i < n then bitCount v 64 else 0
  | 0 => by simp [wordsPopcount]
  | n + 1 => by
    have ih := wordsPopcount_update s (i := i) v n
    simp only [wordsPopcount]
    by_cases hn : n = i
    · subst hn; simp [Function.update_same] at ih ⊢; omega
    · rw [Function.update_noteq hn]
      by_cases h : i < n
      · simp [h, show i < n + 1 by omega] at ih ⊢; omega
      · simp [h, show ¬i < n + 1 by omega] at ih ⊢; omega

/-! ## The filter -/

namespace Bloom64

variable (b : Bloom64)

/-- `bloom64_set`. -/
def set (value : Nat) : Bloom64 :=
  let index := value % b.nBits
  let mask : BitVec 64 := 1#64 <<< (index % 64)
  if b.storage (index / 64) &&& mask = 0 then
    { b with storage := Function.update b.storage (index / 64) (b.storage (index / 64) ||| mask),
             popcount := b.popcount + 1 }
  else b

/-- `bloom64_get`. -/
def get (value : Nat) : Bool :=
  let index := value % b.nBits
  b.storage (index / 64) &&& 1#64 <<< (index % 64) ≠ 0

/-- `bloom64_purge`: zero the `(n_bits + 63) / 64` words. -/
def purge : Bloom64 :=
  { b with storage := fun i ↦ if i < (b.nBits + 63) / 64 then 0 else b.storage i, popcount := 0 }

/-- **The Bloom invariant**: `popcount` counts the set bits of the `n_bits / 64` words and is at
most `n_bits`; `n_bits` is a positive multiple of 64, as `cy_new` asserts. -/
structure Valid : Prop where
  nBits_pos : 0 < b.nBits
  nBits_dvd : b.nBits % 64 = 0
  popcount_eq : b.popcount = wordsPopcount b.storage (b.nBits / 64)
  popcount_le : b.popcount ≤ b.nBits

variable {b}

/-- The word test of the source is the bit of the word. -/
theorem and_shiftLeft_eq_zero (w : BitVec 64) {k : Nat} (hk : k < 64) :
    (w &&& 1#64 <<< k = 0) ↔ w.getLsbD k = false := by
  constructor
  · intro h
    have := congrArg (fun x ↦ x.getLsbD k) h
    simpa [hk] using this
  · intro h
    apply BitVec.eq_of_getLsbD_eq
    intro ⟨j, _⟩
    simp only [BitVec.getLsbD_and, BitVec.getLsbD_shiftLeft, BitVec.getLsbD_one,
      BitVec.getLsbD_zero]
    by_cases hj : j = k
    · subst hj; simp [h]
    · simp [hj]; omega

theorem Valid.popcount_le_of_eq {b : Bloom64} (h : b.nBits % 64 = 0)
    (he : b.popcount = wordsPopcount b.storage (b.nBits / 64)) : b.popcount ≤ b.nBits := by
  have := wordsPopcount_le b.storage (b.nBits / 64)
  omega

/-- **`bloom64_set` keeps the invariant.** -/
theorem set_valid (h : b.Valid) (value : Nat) : (b.set value).Valid := by
  have hi : value % b.nBits < b.nBits := Nat.mod_lt _ h.nBits_pos
  have hw : value % b.nBits / 64 < b.nBits / 64 := by have := h.nBits_dvd; omega
  have hk : value % b.nBits % 64 < 64 := Nat.mod_lt _ (by norm_num)
  simp only [set]
  split
  · rename_i hz
    have hz' := (and_shiftLeft_eq_zero _ hk).1 hz
    have hu := wordsPopcount_update b.storage (i := value % b.nBits / 64)
      (b.storage (value % b.nBits / 64) ||| 1#64 <<< (value % b.nBits % 64)) (b.nBits / 64)
    rw [bitCount_set hk hz' 64] at hu
    simp only [hw, hk, if_true, and_self] at hu
    have he : b.popcount + 1 = wordsPopcount (Function.update b.storage (value % b.nBits / 64)
        (b.storage (value % b.nBits / 64) ||| 1#64 <<< (value % b.nBits % 64))) (b.nBits / 64) := by
      rw [h.popcount_eq]; omega
    exact ⟨h.nBits_pos, h.nBits_dvd, he, Valid.popcount_le_of_eq h.nBits_dvd he⟩
  · exact h

/-- **`bloom64_purge` keeps the invariant.** -/
theorem purge_valid (h0 : 0 < b.nBits) (h64 : b.nBits % 64 = 0) : b.purge.Valid := by
  have hz : ∀ n, n ≤ b.nBits / 64 →
      wordsPopcount (fun i ↦ if i < (b.nBits + 63) / 64 then 0 else b.storage i) n = 0 := by
    intro n
    induction n with
    | zero => intro; rfl
    | succ n ih =>
      intro hn
      simp only [wordsPopcount, ih (by omega), show n < (b.nBits + 63) / 64 by omega, if_true,
        bitCount_zero]
  exact ⟨h0, h64, (hz _ le_rfl).symm, Nat.zero_le _⟩

/-! ### Reading a bit -/

theorem get_eq_getLsbD (v : Nat) :
    b.get v = (b.storage (v % b.nBits / 64)).getLsbD (v % b.nBits % 64) := by
  have hk : v % b.nBits % 64 < 64 := Nat.mod_lt _ (by decide)
  unfold get
  cases hb : (b.storage (v % b.nBits / 64)).getLsbD (v % b.nBits % 64) with
  | false => simpa using (and_shiftLeft_eq_zero _ hk).2 hb
  | true => simpa using mt (and_shiftLeft_eq_zero _ hk).1 (by simp [hb])

/-- The filter reads a value through its residue modulo `n_bits`. -/
theorem get_mod (v : Nat) : b.get (v % b.nBits) = b.get v := by
  simp only [get, Nat.mod_mod]

/-- **A value is in the filter after `bloom64_set`.** -/
theorem get_set (v : Nat) : (b.set v).get v = true := by
  have hk : v % b.nBits % 64 < 64 := Nat.mod_lt _ (by decide)
  dsimp only [set]
  split
  · simp [get_eq_getLsbD, BitVec.getLsbD_or, getLsbD_one_shiftLeft hk]
  · rename_i hne
    rw [get_eq_getLsbD]
    by_contra hb
    exact hne ((and_shiftLeft_eq_zero _ hk).2 (by simpa using hb))

end Bloom64

/-! ## Picking a node-ID -/

/-- `UINT64_MAX`: a word with every bit set. -/
def allOnes : BitVec 64 := BitVec.allOnes 64

/-- The word search of `pick_node_id`: from word `wi`, at most `n` steps forward, cyclically over
`numWords` words, to a word with a clear bit. -/
def scanWords (s : Nat → BitVec 64) (numWords : Nat) : Nat → Nat → Nat
  | 0, wi => wi
  | n + 1, wi => if s wi ≠ allOnes then wi else scanWords s numWords n ((wi + 1) % numWords)

/-- A word search that ends on a full word has passed over `n` full words from `wi` on. -/
theorem scanWords_full {s : Nat → BitVec 64} {N : Nat} :
    ∀ {n wi : Nat}, wi < N → s (scanWords s N n wi) = allOnes →
      ∀ k < n, s ((wi + k) % N) = allOnes
  | 0, _, _, _, _, hk => absurd hk (Nat.not_lt_zero _)
  | n + 1, wi, hwi, h, k, hk => by
    unfold scanWords at h
    split at h
    · contradiction
    · rename_i hw
      cases k with
      | zero => simpa [Nat.mod_eq_of_lt hwi] using hw
      | succ k =>
        have := scanWords_full (Nat.mod_lt _ (by omega)) h k (by omega)
        rwa [Nat.mod_add_mod, Nat.add_assoc, Nat.add_comm 1 k] at this

/-- A search of `N` steps over `N` words that ends on a full word has found every word full. -/
theorem scanWords_all_full {s : Nat → BitVec 64} {N wi : Nat} (hwi : wi < N)
    (h : s (scanWords s N N wi) = allOnes) {j : Nat} (hj : j < N) : s j = allOnes := by
  have := scanWords_full hwi h ((j + N - wi) % N) (Nat.mod_lt _ (by omega))
  rwa [Nat.add_mod_mod, show wi + (j + N - wi) = j + N by omega, Nat.add_mod_right,
    Nat.mod_eq_of_lt hj] at this

/-- The bit search of `pick_node_id`: from bit `bi`, at most `n` steps forward, cyclically, to
a clear bit of `w`. -/
def scanBits (w : BitVec 64) : Nat → Nat → Nat
  | 0, bi => bi
  | n + 1, bi => if w &&& 1#64 <<< bi ≠ 0 then scanBits w n ((bi + 1) % 64) else bi

/-- `pick_node_id` with the PRNG draws `r₁`, `r₂`, `r₃`: the node-ID and the filter with its bit
set, or `none` when one of the four assertions on the result fails. -/
def pickNodeId (b : Bloom64) (nodeIdMax : Nat) (r₁ r₂ r₃ : BitVec 64) : Option (Nat × Bloom64) :=
  let numWords := (min nodeIdMax b.nBits + 63) / 64
  let wordIndex := scanWords b.storage numWords numWords (randomUint r₁ 0 (numWords - 1))
  let word := b.storage wordIndex
  if word = allOnes then some (randomUint r₂ 0 nodeIdMax, b)
  else
    let nodeId := wordIndex * 64 + scanBits word 64 (randomUint r₂ 0 63)
    let nodeId' := nodeId + randomUint r₃ 0 (nodeIdMax / b.nBits) * b.nBits
    if nodeId < nodeIdMax ∧ b.get nodeId = false ∧ nodeId' < nodeIdMax ∧ b.get nodeId' = false
    then some (nodeId', b.set nodeId')
    else none

/-- `mark_neighbor` for the node-ID `remoteNodeId`, `r` being the PRNG draw of the random wait:
purge a congested filter, delay the allocation when a node without an ID hears a new
neighbour, and record the neighbour. -/
def markNeighbor (nodeIdMax : Nat) (cy : Node) (remoteNodeId : Nat) (r : BitVec 64) : Node :=
  let b := if cy.bloom.nBits * 31 / 32 < cy.bloom.popcount then cy.bloom.purge else cy.bloom
  { cy with
    bloom := b.set remoteNodeId
    heartbeatNext := if nodeIdMax < cy.nodeId ∧ b.get remoteNodeId = false
      then cy.heartbeatNext + randomUint r 0 (2 * 1000000) else cy.heartbeatNext }

namespace Bloom64

variable {b : Bloom64}

/-- **`pick_node_id` keeps the invariant.** -/
theorem pickNodeId_valid (h : b.Valid) {nodeIdMax : Nat} {r₁ r₂ r₃ : BitVec 64} {n : Nat}
    {b' : Bloom64} (hp : pickNodeId b nodeIdMax r₁ r₂ r₃ = some (n, b')) : b'.Valid := by
  simp only [pickNodeId] at hp
  split_ifs at hp <;> cases hp
  · exact h
  · exact set_valid h _

variable {nodeIdMax : Nat} {r₁ r₂ r₃ : BitVec 64}

/-- When the word search of `pick_node_id` ends on a full word, every node-ID below
`min node_id_max n_bits` has its bit set. -/
theorem get_of_scan_full
    (hw : b.storage (scanWords b.storage ((min nodeIdMax b.nBits + 63) / 64)
      ((min nodeIdMax b.nBits + 63) / 64)
      (randomUint r₁ 0 ((min nodeIdMax b.nBits + 63) / 64 - 1))) = allOnes)
    {i : Nat} (hi : i < min nodeIdMax b.nBits) : b.get i = true := by
  have hwi := randomUint_lt_of_pos (r := r₁) (show 0 < (min nodeIdMax b.nBits + 63) / 64 by omega)
  have hs := scanWords_all_full hwi hw (j := i / 64) (by omega)
  rw [get_eq_getLsbD, Nat.mod_eq_of_lt (by omega), hs, allOnes, BitVec.getLsbD_allOnes]
  simp only [decide_eq_true_eq]; omega

/-- A node-ID `pick_node_id` returns is below `node_id_max`: a draw from `[0, node_id_max)` when
the filter is full, a node-ID its assertion accepts otherwise. -/
theorem pickNodeId_lt (hM : 0 < nodeIdMax) {n : Nat} {b' : Bloom64}
    (hp : pickNodeId b nodeIdMax r₁ r₂ r₃ = some (n, b')) : n < nodeIdMax := by
  simp only [pickNodeId] at hp
  split_ifs at hp with hw hok <;> cases hp
  · exact randomUint_lt hM
  · exact hok.2.2.1

/-- **What `pick_node_id` returns.** On a valid filter and a positive `node_id_max`, the
node-ID is below `node_id_max` and its bit is set in the new filter; when some node-ID below
`min node_id_max n_bits` has its bit clear, the returned node-ID had its bit clear. -/
theorem pickNodeId_spec (h : b.Valid) (hM : 0 < nodeIdMax) {n : Nat} {b' : Bloom64}
    (hp : pickNodeId b nodeIdMax r₁ r₂ r₃ = some (n, b')) :
    n < nodeIdMax ∧ b'.get n = true ∧
      ((∃ i < min nodeIdMax b.nBits, b.get i = false) → b.get n = false) := by
  simp only [pickNodeId] at hp
  split_ifs at hp with hw hok <;> cases hp
  · have hall := fun i (hi : i < min nodeIdMax b.nBits) ↦ get_of_scan_full hw hi
    have hmod : randomUint r₂ 0 nodeIdMax % b.nBits < min nodeIdMax b.nBits := by
      have := Nat.mod_lt (randomUint r₂ 0 nodeIdMax) h.nBits_pos
      have := Nat.mod_le (randomUint r₂ 0 nodeIdMax) b.nBits
      have := randomUint_lt (r := r₂) hM
      omega
    refine ⟨randomUint_lt hM, by rw [← get_mod]; exact hall _ hmod, fun ⟨i, hi, hg⟩ ↦ ?_⟩
    rw [hall i hi] at hg; cases hg
  · exact ⟨hok.2.2.1, get_set _, fun _ ↦ hok.2.2.2⟩

/-- On an empty filter of `64` bits and `node_id_max = 10`, `pick_node_id` picks a free
node-ID below `10` and sets it. -/
theorem pickNodeId_spec_empty :
    ∃ n b', pickNodeId ⟨64, 0, fun _ ↦ 0⟩ 10 0 0 0 = some (n, b') ∧ n < 10 ∧ b'.get n = true ∧
      ((∃ i < min 10 64, Bloom64.get ⟨64, 0, fun _ ↦ 0⟩ i = false) →
        Bloom64.get ⟨64, 0, fun _ ↦ 0⟩ n = false) := by
  have hv : Bloom64.Valid ⟨64, 0, fun _ ↦ 0⟩ := ⟨by decide, by decide, by decide, by decide⟩
  have hs : (pickNodeId ⟨64, 0, fun _ ↦ 0⟩ 10 0 0 0).isSome = true := by decide
  rcases hp : pickNodeId ⟨64, 0, fun _ ↦ 0⟩ 10 0 0 0 with _ | ⟨n, b'⟩
  · rw [hp] at hs; cases hs
  · exact ⟨n, b', rfl, pickNodeId_spec hv (by decide) hp⟩

/-- **`mark_neighbor` keeps the invariant.** -/
theorem markNeighbor_valid {cy : Node} (h : cy.bloom.Valid) (nodeIdMax remoteNodeId : Nat)
    (r : BitVec 64) : (markNeighbor nodeIdMax cy remoteNodeId r).bloom.Valid := by
  refine set_valid ?_ _
  split
  · exact purge_valid h.nBits_pos h.nBits_dvd
  · exact h

end Bloom64

/-- A filter of `128` bits whose first word is full and whose second has the bits of the
node-IDs `64` to `98` set: node-ID `99` is free. -/
def congestedFilter : Bloom64 :=
  ⟨128, 99, fun i ↦ if i = 0 then allOnes else if i = 1 then BitVec.ofNat 64 (2 ^ 35 - 1) else 0⟩

/-- With `node_id_max = 100`, not a multiple of `64`, `pick_node_id` searches the whole second
word, whose free bits `36` to `63` stand for the node-IDs `100` to `127`. A bit draw that starts
the search there finds one of them, and the assertion `node_id < node_id_max` fails, although
node-ID `99` is free. -/
theorem pickNodeId_misses_free :
    congestedFilter.Valid ∧ congestedFilter.get 99 = false ∧ 99 < min 100 congestedFilter.nBits ∧
      ∀ r₁ r₂ r₃, 36 ≤ r₂.toNat % 63 → pickNodeId congestedFilter 100 r₁ r₂ r₃ = none := by
  refine ⟨⟨by decide, by decide, by decide, by decide⟩, by decide, by decide, fun r₁ r₂ r₃ hr ↦ ?_⟩
  have hk : r₂.toNat % 63 < 63 := Nat.mod_lt _ (by decide)
  have hbit : congestedFilter.storage 1 &&& 1#64 <<< (r₂.toNat % 63) = 0 := by
    refine (Bloom64.and_shiftLeft_eq_zero _ (by omega)).2 ?_
    simp only [congestedFilter, one_ne_zero, if_false, if_true, BitVec.getLsbD_ofNat,
      Nat.testBit_two_pow_sub_one]
    simp; omega
  have hwords : scanWords congestedFilter.storage 2 2 (randomUint r₁ 0 (2 - 1)) = 1 := by
    rw [show randomUint r₁ 0 (2 - 1) = 0 by simp [randomUint, Nat.mod_one]]; decide
  have hscan : scanBits (congestedFilter.storage 1) 64 (randomUint r₂ 0 63) = r₂.toNat % 63 := by
    rw [show randomUint r₂ 0 63 = r₂.toNat % 63 by simp [randomUint], scanBits,
      if_neg (not_not.2 hbit)]
  simp only [pickNodeId, show (min 100 congestedFilter.nBits + 63) / 64 = 2 from rfl, hwords, hscan]
  rw [if_neg (by decide), if_neg (fun h ↦ by have := h.1; omega)]

end Cy
