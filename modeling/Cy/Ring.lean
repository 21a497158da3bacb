import Cy.Termination

/-!
# Merging one heartbeat twice

A second `on_heartbeat` of the heartbeat just merged should find nothing left to do: the local
topic that lost a collision has moved away from the announced subject-ID, and one that lost a
divergence now carries the remote eviction counter. A topic that loses a collision moves to the
next subject-ID its probe finds free, and that is the announced one again when the probe comes
all the way round. The 64-bit wrap of `hash + evictions` (`Cy/Termination.lean`) makes such a
round `4096` subject-IDs long.

## The ring

`ringNode` is what `cy_new` on `Env.wrap`, the creation of the tenants `1 … 4095` and then
`cy_topic_new` of `"/x"` at `4096` leave (`ring_ringNode`): the tenant `q`, of hash `12288 + q`,
on subject-ID `q`, the heartbeat topic on `7509`, and the topic `"x"`, of hash `wrapHash`, on
the subject-ID `0` that the absent tenant `0` would hold. `ringBeat` announces that tenant,
`"aaa"` of hash `12288`, on subject-ID `0`, and wins the collision there. The local topic probes
`1 … 4095`, loses to every tenant, and comes round to `0` with eviction counter `4096`
(`mergeGossip_ring`): the same collision as before. Merging `ringBeat` again sends it round
once more, to subject-ID `4096` with counter `8192` (`onHeartbeat_twice_ne_once`).
-/

namespace Cy

/-- The pointers, and subject-IDs, of the tenants of the ring: `1 … 4095`. -/
def ringTenants : List Nat := List.range' 1 4095

/-- The ring: `cy_new` on `Env.wrap`, the tenants `1 … 4095`, and then `cy_topic_new` of `"/x"`
at `4096`. -/
def ringNode : Node :=
  ((topicNewHint Env.wrap (fun _ ↦ true) (tenantsNode ringTenants) 4096 ['/', 'x']
    subjectIdInvalid 0 0).map (·.1)).getD wrapNode

/-- A heartbeat from node `9` about the tenant `0`, `"aaa"` of hash `12288`, with eviction counter
and age `0`. -/
def ringBeat : Transfer := Transfer.gossip 9 0 (tenantKey 0) 12288 0 0

theorem mem_ringTenants {q : Nat} : q ∈ ringTenants ↔ 0 < q ∧ q < 4096 := by
  simp only [ringTenants, List.mem_range'_1]; omega

/-! ## The ring and what arbitration sees of it -/

/-- A node of the ring shape, with the topic at `4096` on subject-ID `0` and eviction counter
`k`. -/
structure Ring (c : Node) (k : Nat) : Prop where
  tables : TopicTables c
  hashes : c.topicsByHash = 5000 :: ringTenants ++ [4096]
  subjects : c.topicsBySubjectId = 4096 :: ringTenants ++ [5000]
  count : c.topicCount = 4097
  tenant : ∀ q ∈ ringTenants, c.HoldsTenant q
  beat : (c.topics 5000).hash = 7509 ∧ (c.topics 5000).evictions = 0
  hash : (c.topics 4096).hash = wrapHash
  age : (c.topics 4096).age = 0
  evictions : (c.topics 4096).evictions = BitVec.ofNat 64 k

/-- **`cy_topic_new` of `"/x"` on the tenants `1 … 4095` closes the ring**: the topic of hash
`wrapHash` lands on the free subject-ID `0`, in front of the tenants. -/
theorem Filled.ring {c : Node} (h : Filled c ringTenants) (hx : 4096 ∉ c.topicsByHash) :
    ∃ c', topicNewHint Env.wrap (fun _ ↦ true) c 4096 ['/', 'x'] subjectIdInvalid 0 0 =
      some (c', true) ∧ Reachable Env.wrap c' ∧ Ring c' 0 := by
  have hw := topicHash_wrap 'x' (by decide)
  have hl : ringTenants.length = 4095 := by simp [ringTenants]
  obtain ⟨c', hnew, hH, hS, hN, hh, he, ha, hX⟩ := topicNewHint_lands (fun _ ↦ true) 0 0 (s := 0)
    (l := []) (m := ringTenants ++ [5000]) (composeTopicName_x c.namespace_ c.name) (by simp)
    (by decide) (by rw [h.count, hl]; decide)
    (show Env.wrap.nodeIdMax < subjectIdInvalid by decide) hx
    (h.hashOf_lt (fun d hd ↦ by
      rw [hw, wrapHash, BitVec.toNat_ofNat]; have := (mem_ringTenants.1 hd).2; omega)
      (by rw [hw]; decide))
    h.subjects (by simp only [List.nil_append, List.mem_append, mem_ringTenants,
      List.mem_singleton]; omega) (by rw [hw]; decide) (fun _ ha ↦ absurd ha (List.not_mem_nil _))
    (fun b hb ↦ by
      rcases List.mem_append.1 (List.mem_of_mem_head? hb) with hb | hb
      · rw [h.subjectIdOf_tenant hb]; exact (mem_ringTenants.1 hb).1
      · rw [List.mem_singleton.1 hb, h.subjectIdOf_beat]; decide)
  have hr : Reachable Env.wrap c' := .step h.reachable (.topicNewHint hx hnew)
  refine ⟨c', hnew, hr, TopicTables.of_reachable hr, by rw [hH, h.hashes], hS,
    by rw [hN, h.count, hl], fun q hq ↦ ?_, ?_, hh.trans hw, ha, he⟩
  · obtain ⟨h1, h2, h3⟩ := hX q (Nat.ne_of_lt (mem_ringTenants.1 hq).2)
    rw [Node.HoldsTenant, h1, h2, h3]
    exact h.tenant q hq
  · obtain ⟨h1, h2, -⟩ := hX 5000 (by decide)
    rw [h1, h2]
    exact h.beat

theorem ring_ringNode : Reachable Env.wrap ringNode ∧ Ring ringNode 0 := by
  have h : Filled (tenantsNode ringTenants) ringTenants :=
    filled_tenantsNode (List.pairwise_lt_range' 1 4095) fun q hq ↦ (mem_ringTenants.1 hq).2
  obtain ⟨c', hnew, hr, hring⟩ := h.ring (by
    rw [h.hashes, List.mem_cons, mem_ringTenants]; omega)
  have : ringNode = c' := by rw [ringNode, hnew]; rfl
  exact this ▸ ⟨hr, hring⟩

namespace Ring

variable {c : Node} {k : Nat}

theorem subjectIdOf_beat (h : Ring c k) : c.subjectIdOf 5000 = 7509 := by
  rw [Node.subjectIdOf, h.beat.1]; rfl

/-- No topic of a ring has the announced hash `12288`. -/
theorem findByHash_eq_none (h : Ring c k) : c.findByHash 12288 = none :=
  h.tables.findByHash_eq_none fun q hq ↦ by
    rw [h.hashes, List.mem_append, List.mem_cons, List.mem_singleton] at hq
    rcases hq with (rfl | hq) | rfl
    · rw [h.beat.1]; decide
    · have hd := denseTopic_hash (mem_ringTenants.1 hq).2
      have := (mem_ringTenants.1 hq).1
      rw [(h.tenant q hq).1]
      intro he; rw [he] at hd; simp at hd; omega
    · rw [h.hash]; decide

/-- With eviction counter `0` or `4096`, the topic at `4096` holds the announced subject-ID `0`. -/
theorem findBySubjectId_eq (h : Ring c k) (hk : k = 0 ∨ k = 4096) :
    c.findBySubjectId (topicGetSubjectId 12288 0) = some 4096 := by
  have hsid : c.subjectIdOf 4096 = 0 := by
    rw [Node.subjectIdOf, h.hash, h.evictions]; rcases hk with rfl | rfl <;> decide
  rw [show topicGetSubjectId 12288 0 = 0 by decide, ← hsid]
  exact h.tables.findBySubjectId_of_mem (by simp [h.hashes])

/-- The topic at `4096` loses to the announced topic: equal ages, and a larger hash. -/
theorem leftWins_eq_false (h : Ring c k) :
    leftWins (c.topics 4096).age (c.topics 4096).hash 0 12288 = false := by
  rw [h.age, h.hash]; decide

end Ring

/-! ## One round -/

section Round

variable (subscribeOk : Nat → Bool) {c : Node} {k : Nat}

/-- The prologue of the reallocation of the topic at `4096` leaves it out of the index, among
the tenants. -/
theorem Ring.crowded_prologue (h : Ring c k) (e : Nat) :
    Crowded (allocPrologue c 4096 (BitVec.ofNat 64 e) false) ringTenants [5000] e where
  subjects := by simp [allocPrologue, h.subjects]
  slots := List.pairwise_lt_range' 1 4095
  bound q hq := (mem_ringTenants.1 hq).2
  tenant q hq := by
    have hq4 : q ≠ 4096 := Nat.ne_of_lt (mem_ringTenants.1 hq).2
    unfold Node.HoldsTenant
    simp only [allocPrologue, Bool.false_eq_true, if_false, Node.modifyTopic_topics_of_ne hq4]
    exact h.tenant q hq
  rest_sorted := List.pairwise_singleton _ _
  rest q hq := by
    rw [List.mem_singleton.1 hq, Node.subjectIdOf, allocPrologue_topics_of_ne _ _ (by decide),
      ← Node.subjectIdOf, h.subjectIdOf_beat]
    decide
  hash := by simp [allocPrologue, h.hash]
  age := by simp [allocPrologue, h.age]
  evictions := by simp [allocPrologue]

/-- **The topic at `4096` goes round the ring.** Reallocated with eviction counter `k + 1`, it
loses on `1 … 4095` and lands on the subject-ID of counter `k + 4096`, for `k` one of `0` and
`4096`; from `0` it comes back to subject-ID `0`, in front of the tenants. No other topic
changes. -/
theorem allocateTopic_ring (d : Nat) (h : Ring c k) (hk : k = 0 ∨ k = 4096) :
    ∃ c', allocateTopic subscribeOk (d + 1) c 4096 (BitVec.ofNat 64 (k + 1)) false = some c' ∧
      c'.frame = c.frame ∧ (k = 0 → c'.topicsBySubjectId = 4096 :: ringTenants ++ [5000]) ∧
      (∀ q ≠ 4096, (c'.topics q).hash = (c.topics q).hash ∧
        (c'.topics q).evictions = (c.topics q).evictions ∧ (c'.topics q).age = (c.topics q).age) ∧
      (c'.topics 4096).hash = wrapHash ∧ (c'.topics 4096).age = 0 ∧
      (c'.topics 4096).evictions = BitVec.ofNat 64 (k + 4096) := by
  have hlose : ∀ i < 4095, (k + 1 + i) % 4096 ∈ ringTenants := fun i hi ↦ by
    rw [mem_ringTenants]; rcases hk with rfl | rfl <;> omega
  obtain ⟨c', hc', hx', hp⟩ := probe_crowded_lose (fun c q ↦
    allocateTopic subscribeOk d c q ((c.topics q).evictions + 1) false) 4095
    (h.crowded_prologue (k + 1)) hlose (by omega) 3
  have hs : topicGetSubjectId wrapHash (BitVec.ofNat 64 (k + 1 + 4095)) =
      if k = 0 then 0 else 4096 := by
    rcases hk with rfl | rfl
    · exact subjectId_wrapHash (by decide)
    · decide
  have hland := probe_crowded_land (fun c q ↦
    allocateTopic subscribeOk d c q ((c.topics q).evictions + 1) false) hc' hs (fun q hq ↦ by
      have := mem_ringTenants.1 hq; split_ifs <;> omega) (by split_ifs <;> decide) 2
  set X : Node := { c' with topicsBySubjectId := (Index.findOrInsert
    (Index.keyCmp c'.subjectIdOf (if k = 0 then 0 else 4096)) 4096 (ringTenants ++ [5000])).2 }
  have hrun : allocateTopic subscribeOk (d + 1) c 4096 (BitVec.ofNat 64 (k + 1)) false =
      some (allocEpilogue subscribeOk 4096 X) := by
    rw [allocateTopic_succ, allocPrologue_topicCount, h.count,
      show (4097 + 1 : Nat) = 4095 + 3 from rfl, hp.trans hland, Option.map_some']
  have he := Node.topic_congr (@Node.arbitration_allocEpilogue X subscribeOk 4096)
  refine ⟨_, hrun, frame_allocateTopic subscribeOk hrun, fun hk0 ↦ ?_, fun q hq ↦ ?_,
    (he 4096).1.trans hc'.hash, (he 4096).2.2.trans hc'.age,
    (he 4096).2.1.trans (hc'.evictions.trans (by rw [Nat.add_assoc]))⟩
  · rw [allocEpilogue_topicsBySubjectId]
    show (Index.findOrInsert (Index.keyCmp c'.subjectIdOf (if k = 0 then 0 else 4096)) 4096
      (ringTenants ++ [5000])).2 = _
    rw [if_pos hk0, ← List.nil_append (ringTenants ++ [5000]),
      Index.findOrInsert_keyCmp_append (fun b hb ↦ ?_) (fun _ ha ↦ absurd ha (List.not_mem_nil _))]
    · rfl
    · rcases List.mem_append.1 (List.mem_of_mem_head? hb) with hb | hb
      · rw [hc'.subjectIdOf hb]; exact (mem_ringTenants.1 hb).1
      · rw [List.mem_singleton.1 hb]
        exact lt_trans (by decide) (hc'.rest 5000 (List.mem_singleton_self _)).2
  · rw [(he q).1, (he q).2.1, (he q).2.2]
    show (c'.topics q).hash = _ ∧ (c'.topics q).evictions = _ ∧ (c'.topics q).age = _
    rw [hx' q hq]
    simp [allocPrologue, hq]

/-- A merge of the heartbeat of hash `12288`, eviction counter and age `0` on a ring: the topic
at `4096` loses the collision on subject-ID `0` and goes round once. -/
theorem mergeGossip_ring (ts : Int) (h : Ring c k) (hk : k = 0 ∨ k = 4096) :
    ∃ c', mergeGossip subscribeOk c ts 12288 0 0 = some c' ∧ (c'.topics 4096).hash = wrapHash ∧
      (c'.topics 4096).evictions = BitVec.ofNat 64 (k + 4096) ∧ (k = 0 → Ring c' 4096) := by
  have hinc : (c.topics 4096).evictions + 1 = BitVec.ofNat 64 (k + 1) := by
    rw [h.evictions]; rcases hk with rfl | rfl <;> rfl
  obtain ⟨c', hrun, hfr, hsub, hX, hh, ha, hev⟩ := allocateTopic_ring subscribeOk (4097 + 1) h hk
  have hm : mergeGossip subscribeOk c ts 12288 0 0 =
      some ((c'.stampLocalEvent 4096 ts).stampEvent 4096 ts) := by
    simp only [mergeGossip, h.findByHash_eq_none, h.findBySubjectId_eq hk, h.leftWins_eq_false,
      Bool.false_eq_true, if_false, h.count, hinc]
    rw [hrun, Option.map_some']
  have he : ((c'.stampLocalEvent 4096 ts).stampEvent 4096 ts).arbitration = c'.arbitration := by
    simp
  have he' := Node.topic_congr he
  refine ⟨_, hm, (he' 4096).1.trans hh, (he' 4096).2.1.trans hev, fun hk0 ↦ ?_⟩
  subst hk0
  have hq : ∀ q ≠ 4096, (((c'.stampLocalEvent 4096 ts).stampEvent 4096 ts).topics q).hash =
      (c.topics q).hash ∧
      (((c'.stampLocalEvent 4096 ts).stampEvent 4096 ts).topics q).evictions =
        (c.topics q).evictions := fun q hq ↦
    ⟨(he' q).1.trans (hX q hq).1, (he' q).2.1.trans (hX q hq).2.1⟩
  exact {
    tables := h.tables.mergeGossip hm
    hashes := (congrArg (·.1.1) he).trans ((congrArg Node.topicsByHash hfr).trans h.hashes)
    subjects := (congrArg (·.1.2) he).trans (hsub rfl)
    count := (congrArg Node.topicCount hfr).trans h.count
    tenant := fun q hq' ↦ by
      have hq4 := Nat.ne_of_lt (mem_ringTenants.1 hq').2
      rw [holdsTenant_congr he, Node.HoldsTenant, (hX q hq4).1, (hX q hq4).2.1, (hX q hq4).2.2]
      exact h.tenant q hq'
    beat := by rw [(hq 5000 (by decide)).1, (hq 5000 (by decide)).2]; exact h.beat
    hash := (he' 4096).1.trans hh
    age := (he' 4096).2.2.trans ha
    evictions := (he' 4096).2.1.trans hev }

/-- `ringBeat` decodes to the hash `12288` with eviction counter and age `0`, received at `0`. -/
theorem onHeartbeat_ringBeat (c : Node) :
    onHeartbeat subscribeOk c ringBeat = mergeGossip subscribeOk c 0 12288 0 0 := by
  have hb :
      (receiveHeartbeat ringBeat.payload).map (fun hb ↦ (hb.topicHash, hb.evictions, hb.age)) =
        some (12288, 0, 0) := by decide
  unfold onHeartbeat
  split
  · next hn => rw [hn] at hb; cases hb
  · next hb' hhb =>
    simp only [hhb, Option.map_some', Option.some_inj, Prod.mk.injEq] at hb
    rw [hb.1, hb.2.1, hb.2.2]; rfl

end Round

/-- **Merging a heartbeat twice is not merging it once.** On the ring, a reachable node, the first
`on_heartbeat` of `ringBeat` sends the topic at `4096` round to subject-ID `0` with eviction
counter `4096`, where it loses the same collision again; the second sends it round once more, to
subject-ID `4096` with counter `8192`. -/
theorem onHeartbeat_twice_ne_once (subscribeOk : Nat → Bool) :
    Reachable Env.wrap ringNode ∧
      ((onHeartbeat subscribeOk ringNode ringBeat).map fun c ↦
        ((c.topics 4096).evictions.toNat, c.subjectIdOf 4096)) = some (4096, 0) ∧
      (((onHeartbeat subscribeOk ringNode ringBeat).bind fun c ↦
        onHeartbeat subscribeOk c ringBeat).map fun c ↦
          ((c.topics 4096).evictions.toNat, c.subjectIdOf 4096)) = some (8192, 4096) := by
  obtain ⟨c₁, h₁, hh₁, he₁, hr₁⟩ := mergeGossip_ring subscribeOk 0 ring_ringNode.2 (.inl rfl)
  obtain ⟨c₂, h₂, hh₂, he₂, -⟩ := mergeGossip_ring subscribeOk 0 (hr₁ rfl) (.inr rfl)
  have hs₁ : c₁.subjectIdOf 4096 = 0 := by rw [Node.subjectIdOf, hh₁, he₁]; decide
  have hs₂ : c₂.subjectIdOf 4096 = 4096 := by rw [Node.subjectIdOf, hh₂, he₂]; decide
  refine ⟨ring_ringNode.1, ?_, ?_⟩
  · rw [onHeartbeat_ringBeat, h₁, Option.map_some', he₁, hs₁]; rfl
  · rw [onHeartbeat_ringBeat, h₁, Option.some_bind, onHeartbeat_ringBeat, h₂, Option.map_some', he₂,
      hs₂]; rfl

/-- **One merge can leave the local table losing to the heartbeat it processed.** After the first
`on_heartbeat` of `ringBeat` on the ring, a reachable node, no local topic has the announced hash
`12288`, and the local topic on its subject-ID `0`, the one that lost there, is back and still
loses to it. -/
theorem onHeartbeat_still_loses (subscribeOk : Nat → Bool) :
    Reachable Env.wrap ringNode ∧ ∃ c, onHeartbeat subscribeOk ringNode ringBeat = some c ∧
      TopicTables c ∧ c.findByHash 12288 = none ∧
      c.findBySubjectId (topicGetSubjectId 12288 0) = some 4096 ∧
      leftWins (c.topics 4096).age (c.topics 4096).hash 0 12288 = false := by
  obtain ⟨c, hc, -, -, hr⟩ := mergeGossip_ring subscribeOk 0 ring_ringNode.2 (.inl rfl)
  have h := hr rfl
  exact ⟨ring_ringNode.1, c, (onHeartbeat_ringBeat subscribeOk _).trans hc, h.tables,
    h.findByHash_eq_none, h.findBySubjectId_eq (.inr rfl), h.leftWins_eq_false⟩

end Cy
