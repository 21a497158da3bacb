import Cy.Crowd

/-!
# The probing bound of `allocate_topic`

`allocate_topic` asserts `iter_count <= cy->topic_count` at the top of its probing loop: a topic
that loses arbitration at one subject-ID after another finds a free one within `topic_count + 1`
tries, because the subject-IDs `(hash + evictions) % 6144` of consecutive eviction counters are
consecutive. The sum is a `uint64_t`, and `2 ^ 64 % 6144 = 4096`: past the wrap the sequence
starts again at `0`, and a topic whose hash is `2 ^ 64 - 4096` tries the subject-IDs
`0, 1, …, 4095, 0, 1, …` in turn.

## The crowded table

`denseNode` is what `cy_new` and the creation of the tenants `0 … 4095` leave on `Env.wrap`
(`Cy/Crowd.lean`): the tenant `q`, of hash `12288 + q`, on subject-ID `q`, and the heartbeat
topic on `7509`, `4097` topics in all. `cy_topic_new` of `"/x"`, whose hash is `2 ^ 64 - 4096`,
loses to every tenant, so its probe revisits `0` after `4096` tries, and the assertion fails at
try `4099`: `topicNewHint_exceeds_probe_bound`.
-/

namespace Cy

/-! ## Subject-IDs past the wrap -/

theorem isPinned_wrapHash : isPinned wrapHash = false := by decide

theorem subjectId_wrapHash {k : Nat} (hk : k < 8192) :
    topicGetSubjectId wrapHash (BitVec.ofNat 64 k) = k % 4096 := by
  rw [topicGetSubjectId_of_not_pinned isPinned_wrapHash]
  simp only [wrapHash, BitVec.toNat_ofNat, topicSubjectCount, Nat.reducePow, Nat.reduceSub]
  rcases lt_or_le k 4096 with h | h <;> omega

/-- The new topic loses to every tenant: the ages are equal and its hash is larger. -/
theorem leftWins_wrapHash {q : Nat} (hq : q < 4096) :
    leftWins 0 wrapHash (denseTopic q).age (denseTopic q).hash = false := by
  simp only [leftWins, isPinned_wrapHash, isPinned_denseTopic hq, ne_eq, not_true_eq_false,
    if_false]
  simp only [denseTopic, Topic.zero, if_true, decide_eq_false_iff_not, BitVec.lt_def, wrapHash,
    BitVec.toNat_ofNat, Nat.reducePow, Nat.reduceSub]
  omega

/-! ## The probe -/

/-- A node whose subject-ID index holds tenants on the subject-IDs `L`, the topic at `q` on `q`,
followed by the topics `R` on subject-IDs above `4096`, with the topic at `4096` out of the
index, of hash `wrapHash`, age `0` and eviction counter `k`. -/
structure Crowded (c : Node) (L R : List Nat) (k : Nat) : Prop where
  /-- The subject-ID index: the tenants, then the rest. -/
  subjects : c.topicsBySubjectId = L ++ R
  /-- The tenants in increasing order of their subject-IDs. -/
  slots : L.Pairwise (· < ·)
  bound : ∀ q ∈ L, q < 4096
  tenant : ∀ q ∈ L, c.HoldsTenant q
  rest_sorted : Index.Sorted (· < ·) c.subjectIdOf R
  rest : ∀ q ∈ R, q ≠ 4096 ∧ 4096 < c.subjectIdOf q
  hash : (c.topics 4096).hash = wrapHash
  age : (c.topics 4096).age = 0
  evictions : (c.topics 4096).evictions = BitVec.ofNat 64 k

namespace Crowded

variable {c : Node} {L R : List Nat} {k : Nat}

theorem subjectIdOf (h : Crowded c L R k) {q : Nat} (hq : q ∈ L) : c.subjectIdOf q = q := by
  rw [Node.subjectIdOf, (h.tenant q hq).1, (h.tenant q hq).2.1]
  exact subjectId_denseTopic (h.bound q hq)

theorem sorted (h : Crowded c L R k) :
    Index.Sorted (· < ·) c.subjectIdOf c.topicsBySubjectId := by
  rw [h.subjects]
  refine List.pairwise_append.2 ⟨h.slots.imp_of_mem fun ha hb hab ↦ ?_, h.rest_sorted,
    fun a ha b hb ↦ ?_⟩
  · rwa [h.subjectIdOf ha, h.subjectIdOf hb]
  · rw [h.subjectIdOf ha]; exact (h.bound a ha).trans (h.rest b hb).2

/-- Changing the topic at `4096` without touching its hash or age. -/
theorem modifyTopic {k' : Nat} (h : Crowded c L R k) {f : Topic → Topic}
    (hh : (f (c.topics 4096)).hash = (c.topics 4096).hash)
    (ha : (f (c.topics 4096)).age = (c.topics 4096).age)
    (he : (f (c.topics 4096)).evictions = BitVec.ofNat 64 k') :
    Crowded (c.modifyTopic 4096 f) L R k' where
  subjects := h.subjects
  slots := h.slots
  bound := h.bound
  tenant q hq := by
    unfold Node.HoldsTenant
    rw [Node.modifyTopic_topics_of_ne (Nat.ne_of_lt (h.bound q hq))]
    exact h.tenant q hq
  rest_sorted := h.rest_sorted.congr fun q hq ↦ subjectIdOf_modifyTopic (h.rest q hq).1
  rest q hq := by rw [subjectIdOf_modifyTopic (h.rest q hq).1]; exact h.rest q hq
  hash := by rw [Node.modifyTopic_topics_self, hh, h.hash]
  age := by rw [Node.modifyTopic_topics_self, ha, h.age]
  evictions := by rw [Node.modifyTopic_topics_self, he]

end Crowded

/-- **The probe of the topic at `4096` loses on every occupied subject-ID**: from eviction counter
`k`, while the subject-IDs `(k + i) % 4096` it tries are held, each try costs one iteration and
one eviction, as long as the counter stays below `8192`. No other topic changes. -/
theorem probe_crowded_lose (rec : Node → Nat → Option Node) {L R : List Nat} :
    ∀ (n : Nat) {c : Node} {k : Nat}, Crowded c L R k → (∀ i < n, (k + i) % 4096 ∈ L) →
      k + n ≤ 8192 → ∀ m, ∃ c', Crowded c' L R (k + n) ∧ (∀ q ≠ 4096, c'.topics q = c.topics q) ∧
        probe rec 4096 (n + m) c = probe rec 4096 m c'
  | 0, c, _, h, _, _, m => ⟨c, h, fun _ _ ↦ rfl, by rw [Nat.zero_add]⟩
  | n + 1, c, k, h, hL, hn, m => by
    have hq : k % 4096 ∈ L := by simpa using hL 0 (Nat.succ_pos n)
    have hsid : c.subjectIdOf 4096 = k % 4096 := by
      rw [Node.subjectIdOf, h.hash, h.evictions, subjectId_wrapHash (by omega)]
    have hfind : Index.find (Index.keyCmp c.subjectIdOf (c.subjectIdOf 4096)) c.topicsBySubjectId =
        some (k % 4096) :=
      Index.find_keyCmp_of_mem h.sorted (h.subjects ▸ List.mem_append_left _ hq)
        ((h.subjectIdOf hq).trans hsid.symm)
    have hlose : leftWins (c.topics 4096).age (c.topics 4096).hash (c.topics (k % 4096)).age
        (c.topics (k % 4096)).hash = false := by
      rw [h.age, h.hash, (h.tenant _ hq).2.2, (h.tenant _ hq).1]
      exact leftWins_wrapHash (h.bound _ hq)
    have hstep : probe rec 4096 (n + m + 1) c = probe rec 4096 (n + m)
        (c.modifyTopic 4096 fun t ↦ { t with evictions := t.evictions + 1 }) := by
      simp only [probe, Index.findOrInsert_of_find_some hfind, hlose]
      rw [if_neg (Nat.ne_of_lt (h.bound _ hq)), if_neg (by simp)]
    have he : (c.topics 4096).evictions + 1 = BitVec.ofNat 64 (k + 1) := by
      rw [h.evictions]; exact BitVec.ofNat_add_ofNat k 1
    obtain ⟨c', hc', hx, hp⟩ := probe_crowded_lose rec n
      (h.modifyTopic (f := fun t ↦ { t with evictions := t.evictions + 1 }) rfl rfl he)
      (fun i hi ↦ by simpa [Nat.add_right_comm, Nat.add_assoc] using hL (i + 1) (by omega))
      (by omega) m
    refine ⟨c', by rwa [show k + (n + 1) = k + 1 + n by omega],
      fun q hq' ↦ (hx q hq').trans (Node.modifyTopic_topics_of_ne hq' _), ?_⟩
    rw [show n + 1 + m = n + m + 1 by omega, hstep, hp]

/-- **The probe of the topic at `4096` lands on a free subject-ID** at once. -/
theorem probe_crowded_land (rec : Node → Nat → Option Node) {c : Node} {L R : List Nat}
    {k s : Nat} (h : Crowded c L R k) (hs : topicGetSubjectId wrapHash (BitVec.ofNat 64 k) = s)
    (hfree : ∀ q ∈ L, q ≠ s) (hs4 : s ≤ 4096) (m : Nat) :
    probe rec 4096 (m + 1) c = some { c with topicsBySubjectId :=
      (Index.findOrInsert (Index.keyCmp c.subjectIdOf s) 4096 (L ++ R)).2 } := by
  have hsid : c.subjectIdOf 4096 = s := by rw [Node.subjectIdOf, h.hash, h.evictions, hs]
  have hnone : Index.find (Index.keyCmp c.subjectIdOf (c.subjectIdOf 4096)) c.topicsBySubjectId =
      none := (Index.find_keyCmp_eq_none h.sorted).2 fun q hq ↦ by
    rw [h.subjects, List.mem_append] at hq
    rw [hsid]
    rcases hq with hq | hq
    · rw [h.subjectIdOf hq]; exact hfree q hq
    · exact Nat.ne_of_gt (lt_of_le_of_lt hs4 (h.rest q hq).2)
  simp only [probe]
  rw [if_pos (Index.findOrInsert_of_find_none hnone).1, hsid, h.subjects]

/-- **An allocation of the new topic on a crowded node fails**: from eviction counter `0`, as
`cy_topic_new_hint` makes it, with fewer than `8192` topics counted, the probe exhausts its
`topic_count + 1` tries. -/
theorem allocateTopic_crowded (subscribeOk : Nat → Bool) (d : Nat) {c : Node} {R : List Nat}
    {k : Nat} (h : Crowded c (List.range 4096) R k) (hn : c.topicCount < 8192) :
    allocateTopic subscribeOk (d + 1) c 4096 0 true = none := by
  have h1 := h.modifyTopic (f := fun t ↦ { t with subscribed := false }) rfl rfl h.evictions
  have h3 := h1.modifyTopic (f := fun t ↦ { t with evictions := 0 }) rfl rfl
    (show (0 : BitVec 64) = BitVec.ofNat 64 0 from rfl)
  simp only [allocateTopic, if_true, Node.modifyTopic_topicCount]
  obtain ⟨c', -, -, hp⟩ := probe_crowded_lose (fun c q ↦
    allocateTopic subscribeOk d c q ((c.topics q).evictions + 1) false) (c.topicCount + 1) h3
    (fun i _ ↦ List.mem_range.2 (Nat.mod_lt _ (by decide))) (by omega) 0
  rw [hp]
  rfl

/-! ## Creating the topic -/

/-- The node that `cy_new` and the creation of the tenants `0 … 4095` leave on `Env.wrap`. -/
def denseNode : Node := tenantsNode (List.range 4096)

theorem filled_denseNode : Filled denseNode (List.range 4096) :=
  filled_tenantsNode (List.pairwise_lt_range 4096) fun _ hq ↦ List.mem_range.1 hq

/-- `"/x"` composes to `"x"` under any namespace and node name. -/
theorem composeTopicName_x (ns user : List Char) :
    composeTopicName ns user ['/', 'x'] = some ['x'] := rfl

/-- **`cy_topic_new` of `"/x"` on a node filled with the tenants `0 … 4095` fails**: the new topic
closes the hash index at `4096`, and its allocation exhausts the probe. -/
theorem Filled.topicNewHint_wrap (subscribeOk : Nat → Bool) (now : Int) (r : BitVec 64) {c : Node}
    (h : Filled c (List.range 4096)) (hx : 4096 ∉ c.topicsByHash) :
    topicNewHint Env.wrap subscribeOk c 4096 ['/', 'x'] subjectIdInvalid now r = none := by
  have hcount : c.topicCount = 4097 := by rw [h.count, List.length_range]
  have hw := topicHash_wrap 'x' (by decide)
  obtain ⟨c4, hins, -, hS4, hN4, hT4⟩ := Node.insertTopic_of_gt (p := 4096)
    (c := { c with lastEventTs := now, lastLocalEventTs := now })
    (t := { newTopic ['x'] (topicHash Env.wrap.rapidhash ['x']) now r with
      lastEventTs := now, lastLocalEventTs := now }) hx
    (h.hashOf_lt (fun d hd ↦ show _ < (topicHash Env.wrap.rapidhash ['x']).toNat by
      rw [hw, wrapHash, BitVec.toNat_ofNat]; have := List.mem_range.1 hd; omega)
      (show _ < (topicHash Env.wrap.rapidhash ['x']).toNat by rw [hw]; decide))
  have hx4 : ∀ q ≠ 4096, c4.topics q = c.topics q := fun q hq ↦ by
    rw [hT4, Function.update_noteq hq]
  have hcr : Crowded c4 (List.range 4096) [5000] 0 := {
    subjects := hS4.trans h.subjects
    slots := List.pairwise_lt_range 4096
    bound := fun _ hq ↦ List.mem_range.1 hq
    tenant := fun q hq ↦ by
      unfold Node.HoldsTenant
      rw [hx4 q (Nat.ne_of_lt (List.mem_range.1 hq))]
      exact h.tenant q hq
    rest_sorted := List.pairwise_singleton _ _
    rest := fun q hq ↦ by
      rw [List.mem_singleton.1 hq, Node.subjectIdOf, hx4 5000 (by decide), ← Node.subjectIdOf,
        h.subjectIdOf_beat]
      decide
    hash := by rw [hT4, Function.update_same]; exact hw
    age := by rw [hT4, Function.update_same]; rfl
    evictions := by rw [hT4, Function.update_same]; rfl }
  rw [topicNewHint_of_insert subscribeOk (composeTopicName_x _ _) (by simp) (by decide)
    (by rw [hcount]; decide) (show Env.wrap.nodeIdMax < subjectIdInvalid by decide) hins,
    show c4.topicCount + 2 = c4.topicCount + 1 + 1 from rfl,
    allocateTopic_crowded subscribeOk _ hcr (by rw [hN4]; show c.topicCount < 8192; omega)]
  rfl

/-- **`cy_topic_new` can fail the probing bound.** On the node that `cy_new` and the creation of
the tenants `0 … 4095` leave on `Env.wrap`, `4097` topics in consistent tables, `cy_topic_new` of
`"/x"`, whose hash is `2 ^ 64 - 4096`, at an object not yet in the hash index, fails the assertion
`iter_count <= cy->topic_count` of `allocate_topic`. -/
theorem topicNewHint_exceeds_probe_bound :
    Reachable Env.wrap denseNode ∧ denseNode.topicCount = 4097 ∧ 4096 ∉ denseNode.topicsByHash ∧
      ∀ (subscribeOk : Nat → Bool) (now : Int) (r : BitVec 64),
        topicNewHint Env.wrap subscribeOk denseNode 4096 ['/', 'x'] subjectIdInvalid now r =
          none := by
  have h := filled_denseNode
  have hx : 4096 ∉ denseNode.topicsByHash := by
    rw [h.hashes, List.mem_cons, List.mem_range]; omega
  exact ⟨h.reachable, by rw [h.count, List.length_range], hx,
    fun subscribeOk now r ↦ h.topicNewHint_wrap subscribeOk now r hx⟩

end Cy
