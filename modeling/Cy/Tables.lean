import Cy.Api

/-!
# The topic tables in every reachable state

`TopicTables` (in `Cy.State`) is the consistency of the three topic indices and the topic
count. This file proves that `cy_new` establishes it and that every API call keeps it, so it
holds of every reachable node (`topicTables_of_reachable`).

## Structure of the proof

Most calls do not touch what the tables read: the indices, the count, and each topic's hash,
eviction counter and gossip time, collected by `Node.tables`. `TopicTables.of_tables` carries
the invariant across a call that keeps them. The calls that do change them go through three
operations, each with its lemma: a gossip time is restamped (`TopicTables.updateLastGossipTime`),
a topic of the tables is reallocated (`TopicTables.allocateTopic`, from `allocateTopic_spec`),
and a new topic is inserted and allocated (`TopicTables.insertTopic`). The heartbeat merge, the
update and topic creation are compositions of these.
-/

namespace Cy

/-! ## What the tables read -/

/-- The fields of a topic that the tables read: hash, eviction counter and gossip time. -/
def Topic.keys (t : Topic) : BitVec 64 × BitVec 64 × Int := (t.hash, t.evictions, t.lastGossip)

/-- What the topic tables read of a node: the three indices, the count and every topic's keys. -/
def Node.tables (cy : Node) :
    (List Nat × List Nat × List Nat × Nat) × (Nat → BitVec 64 × BitVec 64 × Int) :=
  ((cy.topicsByHash, cy.topicsBySubjectId, cy.topicsByGossipTime, cy.topicCount),
    fun q ↦ (cy.topics q).keys)

namespace Node

variable {cy cy' : Node}

/-- Changing one topic without touching its keys. -/
theorem tables_modifyTopic {p : Nat} {f : Topic → Topic}
    (hf : (f (cy.topics p)).keys = (cy.topics p).keys) :
    (cy.modifyTopic p f).tables = cy.tables := by
  simp only [tables, modifyTopic_topicsByHash, modifyTopic_topicsBySubjectId,
    modifyTopic_topicsByGossipTime, modifyTopic_topicCount, Prod.mk.injEq, true_and]
  funext q
  by_cases hq : q = p
  · subst hq; simp [hf]
  · simp [hq]

@[simp] theorem tables_stampEvent (p : Nat) (ts : Int) :
    (cy.stampEvent p ts).tables = cy.tables := by
  unfold stampEvent; exact tables_modifyTopic rfl

@[simp] theorem tables_stampLocalEvent (p : Nat) (ts : Int) :
    (cy.stampLocalEvent p ts).tables = cy.tables := by
  unfold stampLocalEvent; exact tables_modifyTopic rfl

@[simp] theorem tables_markNeighbor (nodeIdMax remoteNodeId : Nat) (r : BitVec 64) :
    (markNeighbor nodeIdMax cy remoteNodeId r).tables = cy.tables := rfl

@[simp] theorem tables_finalizeFuture (f : Nat) (state : FutureState)
    (lastResponse : Option Transfer) :
    (cy.finalizeFuture f state lastResponse).tables = cy.tables :=
  tables_modifyTopic rfl

@[simp] theorem tables_setFuture (f : Nat) (fut : Future) :
    (cy.setFuture f fut).tables = cy.tables :=
  rfl

@[simp] theorem tables_insertDeadline (f : Nat) (dl : Int) :
    (cy.insertDeadline f dl).tables = cy.tables := rfl

theorem tables_retireTimedOutFutures {now : Int} :
    ∀ {n : Nat} {cy cy' : Node}, retireTimedOutFutures now n cy = some cy' → cy'.tables = cy.tables
  | 0, _, _, h => by cases h; rfl
  | n + 1, cy, cy', h => by
    simp only [retireTimedOutFutures] at h
    split at h
    · cases h; rfl
    · split_ifs at h
      · rw [tables_retireTimedOutFutures h, tables_finalizeFuture]
      · cases h; rfl

theorem tables_ingestTopicResponseTransfer {env : Env} {tr : Transfer} {r : BitVec 64}
    (h : ingestTopicResponseTransfer env cy tr r = some cy') : cy'.tables = cy.tables := by
  simp only [ingestTopicResponseTransfer] at h
  split_ifs at h
  · cases h; rfl
  · split at h
    · cases h; rfl
    · split at h
      · cases h; rfl
      · split_ifs at h
        cases h; simp

theorem tables_publish {env : Env} {p : Nat} {future : Option Nat} {responseDeadline res : Int} :
    (publish env cy p future responseDeadline res).1.tables = cy.tables := by
  simp only [publish]
  split
  · simp [tables_modifyTopic, Topic.keys]
  · split_ifs <;> simp [tables_modifyTopic, Topic.keys]

theorem tables_subscribeWithTransferIdTimeout {p s extent fuel : Nat} {timeout res err : Int}
    {callback : Callback}
    (h : subscribeWithTransferIdTimeout cy p s extent timeout callback fuel res = some (cy', err)) :
    cy'.tables = cy.tables := by
  simp only [subscribeWithTransferIdTimeout, Option.ite_none_left_eq_some,
    Option.map_eq_some'] at h
  obtain ⟨-, l, -, h⟩ := h
  rw [← (Prod.mk.inj h).1]
  simp only [tables, Prod.mk.injEq, true_and]
  funext q
  by_cases hq : q = p
  · subst hq; simp only [Function.update_same]; split <;> split <;> rfl
  · simp only [Function.update_noteq hq]

end Node

/-! ## The invariant across the three table operations -/

namespace TopicTables

variable {cy cy' : Node}

/-- **The tables read only `Node.tables`.** -/
theorem of_tables (h : TopicTables cy) (he : cy'.tables = cy.tables) : TopicTables cy' := by
  have h1 : cy'.topicsByHash = cy.topicsByHash := congrArg (·.1.1) he
  have h2 : cy'.topicsBySubjectId = cy.topicsBySubjectId := congrArg (·.1.2.1) he
  have h3 : cy'.topicsByGossipTime = cy.topicsByGossipTime := congrArg (·.1.2.2.1) he
  have h4 : cy'.topicCount = cy.topicCount := congrArg (·.1.2.2.2) he
  have hk : ∀ q, (cy'.topics q).keys = (cy.topics q).keys := fun q ↦ congrArg (·.2 q) he
  simp only [Topic.keys, Prod.mk.injEq] at hk
  have hh : cy'.hashOf = cy.hashOf := funext fun q ↦ by simp only [Node.hashOf, (hk q).1]
  have hs : cy'.subjectIdOf = cy.subjectIdOf :=
    funext fun q ↦ by simp only [Node.subjectIdOf, (hk q).1, (hk q).2.1]
  have hg : cy'.lastGossipOf = cy.lastGossipOf :=
    funext fun q ↦ by simp only [Node.lastGossipOf, (hk q).2.2]
  exact ⟨h1 ▸ hh ▸ h.hash_sorted, h1 ▸ h2 ▸ h.subject_perm, h2 ▸ hs ▸ h.subject_sorted,
    h1 ▸ h3 ▸ h.gossip_perm, h3 ▸ hg ▸ h.gossip_sorted, h1 ▸ h4 ▸ h.count_eq, h4 ▸ h.count_le⟩

theorem nodup (h : TopicTables cy) : cy.topicsByHash.Nodup := h.hash_sorted.nodup

theorem mem_gossip (h : TopicTables cy) {p : Nat} (hp : p ∈ cy.topicsByHash) :
    p ∈ cy.topicsByGossipTime := h.gossip_perm.mem_iff.2 hp

theorem mem_subject (h : TopicTables cy) {p : Nat} (hp : p ∈ cy.topicsByHash) :
    p ∈ cy.topicsBySubjectId := h.subject_perm.mem_iff.2 hp

/-- The consistent tables are in the shape an allocation needs. -/
theorem allocInv (h : TopicTables cy) : AllocInv cy where
  subject_sorted := h.subject_sorted
  gossip_sorted := h.gossip_sorted
  gossip_nodup := h.gossip_perm.nodup_iff.2 h.nodup
  subject_sub := fun _ hq ↦ h.mem_gossip (h.subject_perm.mem_iff.1 hq)

/-- What an allocation may change keeps the tables consistent, once the subject-ID index holds
the same topics again. -/
theorem of_moves (h : TopicTables cy) (hi : AllocInv cy') (hm : Moves cy cy')
    (hs : cy'.topicsBySubjectId.Perm cy.topicsBySubjectId) : TopicTables cy' where
  hash_sorted := by
    rw [hm.topicsByHash]
    exact h.hash_sorted.congr fun q _ ↦ by simp only [Node.hashOf, hm.hash]
  subject_perm := by rw [hm.topicsByHash]; exact hs.trans h.subject_perm
  subject_sorted := hi.subject_sorted
  gossip_perm := by rw [hm.topicsByHash]; exact hm.gossip_perm.trans h.gossip_perm
  gossip_sorted := hi.gossip_sorted
  count_eq := by rw [hm.topicCount, hm.topicsByHash]; exact h.count_eq
  count_le := by rw [hm.topicCount]; exact h.count_le

theorem updateLastGossipTime (h : TopicTables cy) {p : Nat} (hp : p ∈ cy.topicsByHash) (ts : Int) :
    TopicTables (cy.updateLastGossipTime p ts) :=
  h.of_moves (h.allocInv.updateLastGossipTime (h.mem_gossip hp) ts)
    (updateLastGossipTime_moves (h.mem_gossip hp) ts)
    (by rw [updateLastGossipTime_topicsBySubjectId])

theorem scheduleGossipAsap (h : TopicTables cy) {p : Nat} (hp : p ∈ cy.topicsByHash) :
    TopicTables (cy.scheduleGossipAsap p) :=
  h.of_moves (h.allocInv.scheduleGossipAsap (h.mem_gossip hp))
    (scheduleGossipAsap_moves (h.mem_gossip hp)) (by rw [scheduleGossipAsap_topicsBySubjectId])

/-- **Reallocating a topic of the tables keeps them consistent**, and the same topics. -/
theorem allocateTopic (h : TopicTables cy) {subscribeOk : Nat → Bool} {d p : Nat} {e : BitVec 64}
    (hp : p ∈ cy.topicsByHash) (ha : Cy.allocateTopic subscribeOk d cy p e false = some cy') :
    TopicTables cy' ∧ cy'.topicsByHash = cy.topicsByHash := by
  obtain ⟨hi, hm, hs, -⟩ := allocateTopic_spec subscribeOk d cy p e false cy' h.allocInv
    (h.mem_gossip hp) (by simpa using h.mem_subject hp) ha
  exact ⟨h.of_moves hi hm (by simpa using hs), hm.topicsByHash⟩

end TopicTables

/-! ## Creating a topic -/

section Insert

variable {cy cy4 : Node} {p : Nat} {t : Topic}

/-- What the insertions of `cy_topic_new_hint` leave for the allocation: the new topic is in the
hash and gossip indices, not in the subject-ID index, and both search trees are valid. -/
theorem insertTopic_spec (h : TopicTables cy) (hp : p ∉ cy.topicsByHash)
    (hi : cy.insertTopic p t = some cy4) :
    AllocInv cy4 ∧ p ∈ cy4.topicsByGossipTime ∧ p ∉ cy4.topicsBySubjectId ∧
      Index.Sorted (· < ·) cy4.hashOf cy4.topicsByHash ∧
      cy4.topicsByHash.Perm (p :: cy.topicsByHash) ∧
      cy4.topicsBySubjectId = cy.topicsBySubjectId ∧
      cy4.topicsByGossipTime.Perm (p :: cy.topicsByGossipTime) ∧
      cy4.topicCount = cy.topicCount := by
  simp only [Node.insertTopic] at hi
  split_ifs at hi with hr
  cases hi
  have hpG : p ∉ cy.topicsByGossipTime := fun h' ↦ hp (h.gossip_perm.mem_iff.1 h')
  have hpS : p ∉ cy.topicsBySubjectId := fun h' ↦ hp (h.subject_perm.mem_iff.1 h')
  have hn := Index.find_eq_none_of_findOrInsert hp (not_not.1 hr)
  have hperm := (Index.findOrInsert_of_find_none (n := p) hn).2
  have hgperm := (Index.findOrInsert_stableCmp (k := fun q ↦ (Function.update cy.topics p
    { t with lastGossip := 0 } q).lastGossip) 0 p cy.topicsByGossipTime).2
  refine ⟨⟨?_, ?_, hgperm.nodup_iff.2 (List.nodup_cons.2 ⟨hpG, h.allocInv.gossip_nodup⟩),
    fun q hq ↦ hgperm.mem_iff.2 (List.mem_cons_of_mem _ (h.allocInv.subject_sub q hq))⟩,
    hgperm.mem_iff.2 (List.mem_cons_self _ _), hpS, ?_, hperm, rfl, hgperm, rfl⟩
  · exact h.subject_sorted.congr fun q hq ↦ by
      simp [Node.subjectIdOf, Function.update_noteq (ne_of_mem_of_not_mem hq hpS)]
  · exact Index.sorted_findOrInsert_stableCmp (by simp [Node.lastGossipOf])
      (h.gossip_sorted.congr fun q hq ↦ by
        simp [Node.lastGossipOf, Function.update_noteq (ne_of_mem_of_not_mem hq hpG)])
  · refine (Index.sorted_findOrInsert_keyCmp (by simp [Node.hashOf]) ?_ hn).congr
      fun q _ ↦ by simp only [Node.hashOf, Function.update_apply]; split_ifs <;> rfl
    exact h.hash_sorted.congr fun q hq ↦ by
      simp [Node.hashOf, Function.update_noteq (ne_of_mem_of_not_mem hq hp)]

/-- **Inserting a new topic and allocating it keeps the tables consistent.** -/
theorem TopicTables.insertTopic (h : TopicTables cy) (hp : p ∉ cy.topicsByHash)
    (hc : cy.topicCount < topicSubjectCount) (hi : cy.insertTopic p t = some cy4)
    {subscribeOk : Nat → Bool} {d : Nat} {e : BitVec 64} {c : Node}
    (ha : Cy.allocateTopic subscribeOk d cy4 p e true = some c) :
    TopicTables { c with topicCount := c.topicCount + 1 } := by
  obtain ⟨hi4, hG, hS, hH, hpH, hpS, hpG, hcount⟩ := insertTopic_spec h hp hi
  obtain ⟨hic, hm, hs, -⟩ :=
    allocateTopic_spec subscribeOk d cy4 p e true c hi4 hG (by simpa using hS) ha
  simp only [if_true] at hs
  refine ⟨?_, ?_, hic.subject_sorted, ?_, hic.gossip_sorted, ?_, ?_⟩
  · show Index.Sorted _ c.hashOf c.topicsByHash
    rw [hm.topicsByHash]
    exact hH.congr fun q _ ↦ by simp only [Node.hashOf, hm.hash]
  · show c.topicsBySubjectId.Perm c.topicsByHash
    rw [hm.topicsByHash]
    exact hs.trans (hpS ▸ (h.subject_perm.cons p).trans hpH.symm)
  · show c.topicsByGossipTime.Perm c.topicsByHash
    rw [hm.topicsByHash]
    exact hm.gossip_perm.trans (hpG.trans ((h.gossip_perm.cons p).trans hpH.symm))
  · show c.topicCount + 1 = c.topicsByHash.length
    rw [hm.topicCount, hm.topicsByHash, hpH.length_eq, hcount, h.count_eq]; rfl
  · show c.topicCount + 1 ≤ topicSubjectCount
    rw [hm.topicCount, hcount]; exact hc

end Insert

/-! ## The heartbeat merge and the reception path -/

section Reception

variable {subscribeOk : Nat → Bool} {cy cy' : Node}

/-- The age merge of `on_heartbeat`. -/
theorem tables_merge (p : Nat) (oa : BitVec 64) (c : Node) :
    (c.modifyTopic p fun t ↦ { t with age := maxU64 t.age oa }).tables = c.tables :=
  Node.tables_modifyTopic rfl

theorem TopicTables.mergeGossip (h : TopicTables cy) {ts : Int} {oh oe oa : BitVec 64}
    (hm : Cy.mergeGossip subscribeOk cy ts oh oe oa = some cy') : TopicTables cy' := by
  simp only [Cy.mergeGossip] at hm
  split at hm
  · -- the hash is unknown: a collision if the subject-ID is taken
    split at hm
    · cases hm; exact h
    · rename_i mine hmine
      have hp : mine ∈ cy.topicsByHash := h.subject_perm.mem_iff.1 (Index.find_mem hmine)
      split at hm
      · cases hm; exact (h.scheduleGossipAsap hp).of_tables (Node.tables_stampEvent _ _)
      · obtain ⟨c, hc, rfl⟩ := Option.map_eq_some'.1 hm
        exact (h.allocateTopic hp hc).1.of_tables (by simp)
  · -- the hash is known: a divergence if the eviction counters differ
    rename_i mine hmine
    have hp : mine ∈ cy.topicsByHash := Index.find_mem hmine
    split at hm
    · split at hm
      · cases hm
        exact (h.scheduleGossipAsap hp).of_tables (by rw [tables_merge, Node.tables_stampEvent])
      · obtain ⟨c, hc, rfl⟩ := Option.map_eq_some'.1 hm
        obtain ⟨hc, hcH⟩ := (h.of_tables (tables_merge mine oa cy)).allocateTopic hp hc
        have hc2 : TopicTables (if (c.topics mine).evictions = oe
            then c.updateLastGossipTime mine (cy.topics mine).lastGossip else c) := by
          split
          · exact hc.updateLastGossipTime (by rw [hcH]; exact hp) _
          · exact hc
        exact hc2.of_tables (by simp [tables_merge])
    · cases hm; exact h.of_tables (tables_merge mine oa cy)

theorem TopicTables.onHeartbeat (h : TopicTables cy) {tr : Transfer}
    (hm : Cy.onHeartbeat subscribeOk cy tr = some cy') : TopicTables cy' := by
  simp only [Cy.onHeartbeat] at hm
  split at hm
  · cases hm; exact h
  · exact h.mergeGossip hm

theorem TopicTables.runCallbacks {p : Nat} {tr : Transfer} :
    ∀ {l : List Nat} {cy cy' : Node}, TopicTables cy →
      Cy.runCallbacks subscribeOk p tr l cy = some cy' → TopicTables cy'
  | [], _, _, h, hr => by cases hr; exact h
  | s :: l, cy, cy', h, hr => by
    simp only [Cy.runCallbacks] at hr
    split_ifs at hr
    · obtain ⟨c, hc, hr⟩ := Option.bind_eq_some.1 hr
      exact TopicTables.runCallbacks (h.onHeartbeat hc) hr
    · exact TopicTables.runCallbacks h hr

theorem TopicTables.ingestTopicTransfer (h : TopicTables cy) {env : Env} {p : Nat}
    {tr : Transfer} {r : BitVec 64} {fuel : Nat}
    (hi : Cy.ingestTopicTransfer env subscribeOk cy p tr r fuel = some cy') : TopicTables cy' := by
  simp only [Cy.ingestTopicTransfer] at hi
  have h1 := h.of_tables ((Node.tables_modifyTopic (p := p)
    (f := fun t ↦ { t with age := t.age + 1 }) rfl).trans
    (Node.tables_markNeighbor env.nodeIdMax tr.remoteNodeId r))
  split at hi
  · cases hi; exact h1
  · obtain ⟨l, -, hr⟩ := Option.bind_eq_some.1 hi
    exact (h1.of_tables (Node.tables_modifyTopic rfl)).runCallbacks hr

end Reception

/-! ## The update -/

/-- `age_topic` changes only the age and the ageing time. -/
theorem keys_ageTopic {t t' : Topic} {now : Int} (h : ageTopic t now = some t') :
    t'.keys = t.keys := by
  simp only [ageTopic] at h
  split_ifs at h <;> cases h <;> rfl

theorem TopicTables.publishHeartbeat {cy cy' : Node} (h : TopicTables cy) {p : Nat}
    (hp : p ∈ cy.topicsByHash) {now : Int} {bytes : List (BitVec 8)}
    (hb : Cy.publishHeartbeat cy p now = some (cy', bytes)) : TopicTables cy' := by
  unfold Cy.publishHeartbeat at hb
  split at hb
  · rename_i t _ ha _
    dsimp only at hb
    split_ifs at hb
    cases hb
    exact (h.of_tables ((Node.tables_modifyTopic rfl).trans
      (Node.tables_modifyTopic (keys_ageTopic ha)))).updateLastGossipTime hp now
  · cases hb

theorem tables_processCollision (env : Env) (cy : Node) (now : Int) :
    (processCollision env cy now).1.tables = cy.tables := by
  unfold processCollision; split_ifs <;> rfl

theorem TopicTables.update {cy cy' : Node} (h : TopicTables cy) {env : Env} {now : Int}
    {r₁ r₂ r₃ : BitVec 64} {setRes pubRes res : Int} {calls : List Call}
    (hu : Cy.update env cy now r₁ r₂ r₃ setRes pubRes = some (cy', res, calls)) :
    TopicTables cy' := by
  obtain ⟨cy1, cy2, calls2, h1, h2, hrest⟩ := update_cases hu
  have ht2 : TopicTables cy2 := by
    have := (h.of_tables (Node.tables_retireTimedOutFutures h1)).of_tables
      (tables_processCollision env cy1 now)
    rw [h2] at this; exact this
  rcases hrest with ⟨-, rfl, -, -⟩ | ⟨-, cy3, res3, calls3, hpick, -, hrest⟩
  · exact ht2
  have ht3 : TopicTables cy3 := by
    rcases hpick with ⟨-, n, b, -, rfl, -, -⟩ | ⟨-, rfl, -, -⟩
    · exact ht2.of_tables rfl
    · exact ht2
  rcases hrest with ⟨-, rfl, -, -⟩ | ⟨-, p, cy4, bytes, hp, h4, -, rfl, -, -⟩
  · exact ht3
  · exact (ht3.publishHeartbeat (ht3.gossip_perm.mem_iff.1 (Index.min_mem hp)) h4).of_tables rfl

/-! ## Topic creation and the other calls -/

theorem TopicTables.topicNewHint {cy cy' : Node} (h : TopicTables cy) {env : Env}
    {subscribeOk : Nat → Bool} {p : Nat} {name : List Char} {hint : Nat} {now : Int}
    {r : BitVec 64} {created : Bool} (hp : p ∉ cy.topicsByHash)
    (ht : Cy.topicNewHint env subscribeOk cy p name hint now r = some (cy', created)) :
    TopicTables cy' := by
  rcases topicNewHint_cases ht with
    ⟨rfl, -⟩ | ⟨-, rfl, -⟩ | ⟨_, _, _, _, hc1, hcount, hi, hc, rfl, -⟩
  · exact h
  · exact h.of_tables rfl
  · rcases hc1 with rfl | rfl
    · exact h.insertTopic hp hcount hi hc
    · have h1 : TopicTables { cy with lastEventTs := now, lastLocalEventTs := now } :=
        h.of_tables rfl
      exact h1.insertTopic hp hcount hi hc

theorem TopicTables.notifyDiscriminatorCollision {cy : Node} (h : TopicTables cy) {p : Option Nat}
    (hp : ∀ q ∈ p, q ∈ cy.topicsByHash) : TopicTables (Cy.notifyDiscriminatorCollision cy p) := by
  cases p with
  | none => exact h
  | some q =>
    simp only [Cy.notifyDiscriminatorCollision]
    split_ifs
    · exact h.scheduleGossipAsap (hp q rfl)
    · exact h

/-- A fresh node has no topics. -/
theorem topicTables_initial (env : Env) (uid : BitVec 64) (nodeId : Nat) (ns : List Char)
    (now : Int) (bloom : Bloom64) : TopicTables (Node.initial env uid nodeId ns now bloom) :=
  ⟨.nil, .nil, .nil, .nil, .nil, rfl, Nat.zero_le _⟩

theorem TopicTables.cyNew {env : Env} {uid : BitVec 64} {nodeId : Nat} {ns : List Char}
    {now : Int} {bloom : Bloom64} {r₁ r₂ : BitVec 64} {setRes : Int} {p s : Nat}
    {subscribeOk : Nat → Bool} {subRes res : Int} {calls : List Call} {cy : Node}
    (h : Cy.cyNew env uid nodeId ns now bloom r₁ r₂ setRes p s subscribeOk subRes =
      some (cy, res, calls)) : TopicTables cy := by
  obtain ⟨-, -, cy1, res1, hc, hrest⟩ := cyNew_cases h
  have ht1 : TopicTables cy1 ∧ cy1.topicsByHash = [] := by
    rcases claimNodeId_cases hc with ⟨-, rfl, -⟩ | ⟨-, rfl, -⟩ <;>
      exact ⟨(topicTables_initial env uid nodeId ns now bloom).of_tables rfl, rfl⟩
  rcases hrest with ⟨-, rfl⟩ | ⟨cy2, _, h2, hsub⟩
  · exact ht1.1
  have ht2 := ht1.1.topicNewHint (ht1.2 ▸ List.not_mem_nil p) h2
  rcases hsub with ⟨-, _, h3⟩ | ⟨-, rfl⟩
  · exact (show TopicTables { cy2 with heartbeatTopic := some p } from ht2.of_tables rfl).of_tables
      (Node.tables_subscribeWithTransferIdTimeout h3)
  · exact ht2

/-- **Every call keeps the topic tables consistent.** -/
theorem TopicTables.step {env : Env} {cy cy' : Node} {calls : List Call} (h : TopicTables cy)
    (hs : Step env cy calls cy') : TopicTables cy' := by
  cases hs with
  | topicNewHint hp ht => exact h.topicNewHint hp ht
  | ingestTopicTransfer _ hi => exact h.ingestTopicTransfer hi
  | ingestTopicResponseTransfer hi => exact h.of_tables (Node.tables_ingestTopicResponseTransfer hi)
  | update hu => exact h.update hu
  | publish _ _ => exact h.of_tables Node.tables_publish
  | respond => exact h
  | subscribe _ _ hs => exact h.of_tables (Node.tables_subscribeWithTransferIdTimeout hs)
  | notifyDiscriminatorCollision hp => exact h.notifyDiscriminatorCollision hp
  | notifyNodeIdCollision => exact h.of_tables rfl

/-- The induction over runs, read by the later modules. -/
theorem TopicTables.of_reachable {env : Env} {cy : Node} (h : Reachable env cy) : TopicTables cy :=
  Reachable.induct_on (fun h ↦ TopicTables.cyNew h) (fun _ ht hs ↦ ht.step hs) h

/-- **The topic tables are consistent in every reachable state**: the hash index is a search tree
over pairwise-distinct hashes; the subject-ID index holds the same topics, each under its current
subject-ID, pairwise distinct; the gossip index holds the same topics in non-decreasing
`last_gossip` order; and `topic_count` is their number, at most `CY_TOPIC_SUBJECT_COUNT`. -/
theorem topicTables_of_reachable {env : Env} {cy : Node} (h : Reachable env cy) :
    TopicTables cy :=
  TopicTables.of_reachable h

theorem topicTables_canNode : TopicTables canNode := topicTables_of_reachable canNode_reachable

end Cy
