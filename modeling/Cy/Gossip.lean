import Cy.Wire
import Cy.Tables

/-!
# Arbitration between nodes

`on_heartbeat` compares a remote topic with the local one it meets: a topic of another hash on
the same subject-ID (a collision, decided by `left_wins`), or the same topic under another
eviction counter (a divergence, decided by the age level and then the larger counter,
`keepsAllocation`). The local topic that loses is reallocated.

## What a merge reads and changes

`Node.arbitration` is what these decisions read: the hash and subject-ID indices and every
topic's hash, eviction counter and age. `Node.yieldsTo` is the decision of `on_heartbeat` on a
decoded heartbeat, and `Node.yieldsOn` on a received transfer: whether a local topic loses and is
reallocated. A merge the local side does not lose changes nothing that arbitration reads
(`mergeGossip_of_yieldsTo_false`). In a divergence the winner keeps its counter and takes the
larger age (`mergeGossip_of_keeps`); the loser takes the larger age and is reallocated to the
remote counter (`mergeGossip_of_loses`), which returns when no other topic holds that counter's
subject-ID and lands there when every tenant ranks below the remote topic (`mergeGossip_loser`).

## Two nodes

When two nodes exchange heartbeats whose fields fit the wire, exactly one of them yields, for
collisions and divergences alike (`gossip_exactly_one_yields`): the two rules are complements,
and each side decodes the other's values exactly (`heartbeat_roundTrip`). In a collision the
node that yields reallocates its topic with one more eviction (`mergeGossip_of_yieldsTo_true`)
and ends on another counter, because the probing loop moves a topic by at most `topic_count`
counters (`allocateTopic_evictions_le`); the other changes nothing arbitration reads. After a
divergence both end with the winner's counter and the larger age, when the loser's reallocation
returns and finds the subject-ID free or held by lower-ranked topics
(`allocateTopic_evictions_of_outranks`); when it is free, the reallocation does return. Past the
wire widths the decoded age can be smaller than the sender's, and both sides win
(`gossip_both_win`).

## Two heartbeats on one node

The order in which one node merges two heartbeats about topics it does not hold matters once a
reallocation cascade started by the first reaches the subject-ID of the second
(`onHeartbeat_order_dependent`). When the node withstands both, yielding to neither, both orders
leave what arbitration reads as it was (`onHeartbeat_comm_of_withstands`).
-/

namespace Cy

/-! ## What arbitration reads -/

/-- The hash and subject-ID indices and every topic's hash, eviction counter and age. -/
def Node.arbitration (cy : Node) :
    (List Nat × List Nat) × (Nat → BitVec 64 × BitVec 64 × BitVec 64) :=
  ((cy.topicsByHash, cy.topicsBySubjectId),
    fun q ↦ ((cy.topics q).hash, (cy.topics q).evictions, (cy.topics q).age))

/-- The divergence rule of `on_heartbeat`: the local allocation stands when its age level is
higher, or the same with the larger eviction counter. -/
def keepsAllocation (mineAge mineEvictions otherAge otherEvictions : BitVec 64) : Bool :=
  decide (log2Floor mineAge > log2Floor otherAge ∨
    (log2Floor mineAge = log2Floor otherAge ∧ mineEvictions > otherEvictions))

/-- On distinct eviction counters exactly one side keeps its allocation. -/
theorem keepsAllocation_swap {a ea b eb : BitVec 64} (he : ea ≠ eb) :
    keepsAllocation a ea b eb = !keepsAllocation b eb a ea := by
  have : ea.toNat ≠ eb.toNat := fun e ↦ he (BitVec.eq_of_toNat_eq e)
  simp only [keepsAllocation, gt_iff_lt, BitVec.lt_def, ← decide_not, decide_eq_decide]
  omega

/-- Whether `on_heartbeat` of a heartbeat announcing `hash`, `evictions` and `age` reallocates a
local topic: the tenant of the announced subject-ID loses the collision, or the local copy of the
topic loses the divergence. -/
def Node.yieldsTo (cy : Node) (hash evictions age : BitVec 64) : Bool :=
  match cy.findByHash hash with
  | none =>
    match cy.findBySubjectId (topicGetSubjectId hash evictions) with
    | none => false
    | some mine => !leftWins (cy.topics mine).age (cy.topics mine).hash age hash
  | some mine =>
    decide ((cy.topics mine).evictions ≠ evictions) &&
      !keepsAllocation (cy.topics mine).age (cy.topics mine).evictions age evictions

/-- Whether `on_heartbeat` of the transfer reallocates a local topic. -/
def Node.yieldsOn (cy : Node) (tr : Transfer) : Bool :=
  match receiveHeartbeat tr.payload with
  | none => false
  | some hb => cy.yieldsTo hb.topicHash hb.evictions hb.age

/-- `on_heartbeat` of `tr` returns and leaves what arbitration reads as it was: every local topic
keeps its subject-ID and its eviction counter. -/
def Node.StandsOn (subscribeOk : Nat → Bool) (cy : Node) (tr : Transfer) : Prop :=
  ∃ c, onHeartbeat subscribeOk cy tr = some c ∧ c.arbitration = cy.arbitration

/-- `on_heartbeat` of `tr` reallocates the local topic at `p`: it is
`allocate_topic(p, evictions + 1, false)` followed by changes that arbitration does not read, and
when it returns the topic holds another eviction counter. -/
def Node.ReallocatesOn (subscribeOk : Nat → Bool) (cy : Node) (p : Nat) (tr : Transfer) : Prop :=
  (∃ F : Node → Node, (∀ c, (F c).arbitration = c.arbitration) ∧
    onHeartbeat subscribeOk cy tr = (allocateTopic subscribeOk (cy.topicCount + 2) cy p
      ((cy.topics p).evictions + 1) false).map F) ∧
  ∀ c, onHeartbeat subscribeOk cy tr = some c → (c.topics p).evictions ≠ (cy.topics p).evictions

namespace Node

variable {cy cy' : Node}

theorem arbitration_modifyTopic {p : Nat} {f : Topic → Topic}
    (hf : (f (cy.topics p)).hash = (cy.topics p).hash ∧
      (f (cy.topics p)).evictions = (cy.topics p).evictions ∧
        (f (cy.topics p)).age = (cy.topics p).age) :
    (cy.modifyTopic p f).arbitration = cy.arbitration := by
  simp only [arbitration, modifyTopic_topicsByHash, modifyTopic_topicsBySubjectId, Prod.mk.injEq,
    true_and]
  funext q
  by_cases hq : q = p
  · subst hq; simp [hf]
  · simp [hq]

@[simp] theorem arbitration_stampEvent {p : Nat} {ts : Int} :
    (cy.stampEvent p ts).arbitration = cy.arbitration :=
  arbitration_modifyTopic ⟨rfl, rfl, rfl⟩

@[simp] theorem arbitration_stampLocalEvent {p : Nat} {ts : Int} :
    (cy.stampLocalEvent p ts).arbitration = cy.arbitration :=
  arbitration_modifyTopic ⟨rfl, rfl, rfl⟩

@[simp] theorem arbitration_updateLastGossipTime {p : Nat} {ts : Int} :
    (cy.updateLastGossipTime p ts).arbitration = cy.arbitration :=
  @arbitration_modifyTopic { cy with topicsByGossipTime := cy.topicsByGossipTime.erase p } p
    (fun t ↦ { t with lastGossip := ts }) ⟨rfl, rfl, rfl⟩

@[simp] theorem arbitration_scheduleGossipAsap {p : Nat} :
    (cy.scheduleGossipAsap p).arbitration = cy.arbitration := by
  unfold scheduleGossipAsap; split
  · exact arbitration_updateLastGossipTime
  · rfl

@[simp] theorem arbitration_allocEpilogue {subscribeOk : Nat → Bool} {p : Nat} :
    (allocEpilogue subscribeOk p cy).arbitration = cy.arbitration := by
  simp only [allocEpilogue]
  split
  · exact arbitration_scheduleGossipAsap
  · rw [arbitration_modifyTopic ⟨rfl, rfl, rfl⟩, arbitration_scheduleGossipAsap]

theorem topic_congr (he : cy'.arbitration = cy.arbitration) (q : Nat) :
    (cy'.topics q).hash = (cy.topics q).hash ∧ (cy'.topics q).evictions = (cy.topics q).evictions ∧
      (cy'.topics q).age = (cy.topics q).age :=
  Prod.mk.inj_iff.1 (congrArg (·.2 q) he) |>.imp_right Prod.mk.inj_iff.1

theorem findByHash_congr (he : cy'.arbitration = cy.arbitration) :
    cy'.findByHash = cy.findByHash := by
  have h1 : cy'.topicsByHash = cy.topicsByHash := congrArg (·.1.1) he
  have hh : cy'.hashOf = cy.hashOf := funext fun q ↦ by simp only [hashOf, (topic_congr he q).1]
  funext x; simp only [findByHash, h1, hh]

theorem findBySubjectId_congr (he : cy'.arbitration = cy.arbitration) :
    cy'.findBySubjectId = cy.findBySubjectId := by
  have h2 : cy'.topicsBySubjectId = cy.topicsBySubjectId := congrArg (·.1.2) he
  have hs : cy'.subjectIdOf = cy.subjectIdOf := funext fun q ↦ by
    simp only [subjectIdOf, (topic_congr he q).1, (topic_congr he q).2.1]
  funext x; simp only [findBySubjectId, h2, hs]

/-- The decision reads only what arbitration reads. -/
theorem yieldsTo_congr (he : cy'.arbitration = cy.arbitration) (hash evictions age : BitVec 64) :
    cy'.yieldsTo hash evictions age = cy.yieldsTo hash evictions age := by
  simp only [yieldsTo, findByHash_congr he, findBySubjectId_congr he, fun q ↦ (topic_congr he q).1,
    fun q ↦ (topic_congr he q).2.1, fun q ↦ (topic_congr he q).2.2]

end Node

/-- **A merge that the local side does not lose changes nothing arbitration reads**, for a
heartbeat about a topic the node does not hold. -/
theorem mergeGossip_of_yieldsTo_false {subscribeOk : Nat → Bool} {cy : Node} {ts : Int}
    {hash evictions age : BitVec 64} (hn : cy.findByHash hash = none)
    (hy : cy.yieldsTo hash evictions age = false) :
    ∃ c, mergeGossip subscribeOk cy ts hash evictions age = some c ∧
      c.arbitration = cy.arbitration := by
  unfold Node.yieldsTo at hy
  simp only [mergeGossip, hn] at hy ⊢
  split at hy
  · rename_i hs; exact ⟨cy, by simp only [hs], rfl⟩
  · rename_i mine hs
    have hw : leftWins (cy.topics mine).age (cy.topics mine).hash age hash = true := by
      simpa using hy
    exact ⟨_, by simp only [hs, hw, if_true]; rfl, by simp⟩

/-- **A merge that the local side loses in a collision reallocates the tenant** of the announced
subject-ID with one more eviction, then stamps its event times. -/
theorem mergeGossip_of_yieldsTo_true (subscribeOk : Nat → Bool) (ts : Int) {cy : Node}
    {hash evictions age : BitVec 64} (hn : cy.findByHash hash = none)
    (hy : cy.yieldsTo hash evictions age = true) :
    ∃ mine, cy.findBySubjectId (topicGetSubjectId hash evictions) = some mine ∧
      mergeGossip subscribeOk cy ts hash evictions age =
        (allocateTopic subscribeOk (cy.topicCount + 2) cy mine ((cy.topics mine).evictions + 1)
          false).map fun c ↦ (c.stampLocalEvent mine ts).stampEvent mine ts := by
  unfold Node.yieldsTo at hy
  simp only [mergeGossip, hn] at hy ⊢
  split at hy
  · cases hy
  · rename_i mine hs
    have hl : leftWins (cy.topics mine).age (cy.topics mine).hash age hash = false := by
      simpa using hy
    exact ⟨mine, hs, by simp only [hs, hl, Bool.false_eq_true, if_false]⟩

/-! ## Finding the topics of consistent tables -/

namespace TopicTables

variable {cy : Node}

theorem findByHash_of_mem (h : TopicTables cy) {q : Nat} (hq : q ∈ cy.topicsByHash) :
    cy.findByHash (cy.topics q).hash = some q :=
  Index.find_keyCmp_of_mem h.hash_sorted hq rfl

theorem findByHash_eq_none (h : TopicTables cy) {x : BitVec 64}
    (hx : ∀ q ∈ cy.topicsByHash, (cy.topics q).hash ≠ x) : cy.findByHash x = none :=
  (Index.find_keyCmp_eq_none h.hash_sorted).2 fun q hq e ↦ hx q hq (BitVec.eq_of_toNat_eq e)

theorem findBySubjectId_of_mem (h : TopicTables cy) {q : Nat} (hq : q ∈ cy.topicsByHash) :
    cy.findBySubjectId (cy.subjectIdOf q) = some q :=
  Index.find_keyCmp_of_mem h.subject_sorted (h.mem_subject hq) rfl

theorem yieldsTo_collision (h : TopicTables cy) {p : Nat} (hp : p ∈ cy.topicsByHash)
    {hash evictions age : BitVec 64} (hn : ∀ q ∈ cy.topicsByHash, (cy.topics q).hash ≠ hash)
    (hs : topicGetSubjectId hash evictions = cy.subjectIdOf p) :
    cy.yieldsTo hash evictions age = !leftWins (cy.topics p).age (cy.topics p).hash age hash := by
  simp only [Node.yieldsTo, h.findByHash_eq_none hn, hs, h.findBySubjectId_of_mem hp]

theorem yieldsTo_divergence (h : TopicTables cy) {p : Nat} (hp : p ∈ cy.topicsByHash)
    (evictions age : BitVec 64) :
    cy.yieldsTo (cy.topics p).hash evictions age =
      (decide ((cy.topics p).evictions ≠ evictions) &&
        !keepsAllocation (cy.topics p).age (cy.topics p).evictions age evictions) := by
  simp only [Node.yieldsTo, h.findByHash_of_mem hp]

/-- A heartbeat that `on_heartbeat` decodes to a topic the node does not hold, on the subject-ID
of its topic `p`, which wins the collision there: the merge reallocates `p`. -/
theorem reallocatesOn_of_collision (h : TopicTables cy) {subscribeOk : Nat → Bool} {p : Nat}
    (hp : p ∈ cy.topicsByHash) {tr : Transfer} {hash evictions age : BitVec 64}
    (ho : Cy.onHeartbeat subscribeOk cy tr =
      Cy.mergeGossip subscribeOk cy tr.timestamp hash evictions age)
    (hn : ∀ q ∈ cy.topicsByHash, (cy.topics q).hash ≠ hash)
    (hs : topicGetSubjectId hash evictions = cy.subjectIdOf p)
    (hl : leftWins (cy.topics p).age (cy.topics p).hash age hash = false) :
    cy.ReallocatesOn subscribeOk p tr := by
  obtain ⟨mine, hm, hmerge⟩ := mergeGossip_of_yieldsTo_true subscribeOk tr.timestamp
    (h.findByHash_eq_none hn)
    (by rw [h.yieldsTo_collision hp hn hs, hl]; rfl)
  rw [hs, h.findBySubjectId_of_mem hp, Option.some_inj] at hm
  subst hm
  refine ⟨⟨_, fun c ↦ by simp, ho.trans hmerge⟩, fun c hc ↦ ?_⟩
  rw [ho, hmerge] at hc
  obtain ⟨c₀, hc₀, rfl⟩ := Option.map_eq_some'.1 hc
  obtain ⟨i, hi, he⟩ := allocateTopic_evictions_le subscribeOk h.allocInv
    (by simpa using h.mem_subject hp) hc₀
  have he' := (Node.topic_congr
    (show ((c₀.stampLocalEvent p tr.timestamp).stampEvent p tr.timestamp).arbitration =
      c₀.arbitration by simp) p).2.1
  rw [he', he, add_one_add_ofNat]
  have := h.count_le
  unfold topicSubjectCount at this
  exact add_ofNat_ne_self _ (Nat.succ_pos i) (by omega)

/-- A heartbeat about a topic the node does not hold, to which it does not yield: the merge
leaves what arbitration reads as it was. -/
theorem standsOn_of_collision (h : TopicTables cy) {subscribeOk : Nat → Bool} {tr : Transfer}
    {hash evictions age : BitVec 64}
    (ho : Cy.onHeartbeat subscribeOk cy tr =
      Cy.mergeGossip subscribeOk cy tr.timestamp hash evictions age)
    (hn : ∀ q ∈ cy.topicsByHash, (cy.topics q).hash ≠ hash)
    (hy : cy.yieldsTo hash evictions age = false) : cy.StandsOn subscribeOk tr := by
  rw [Node.StandsOn, ho]
  exact mergeGossip_of_yieldsTo_false (h.findByHash_eq_none hn) hy

end TopicTables

/-! ## The two outcomes of a divergence -/

section Merge

variable {subscribeOk : Nat → Bool} {cy : Node} {ts : Int} {oh oe oa : BitVec 64} {m : Nat}

theorem maxU64_comm (a b : BitVec 64) : maxU64 a b = maxU64 b a := by
  unfold maxU64; split_ifs <;> bv_omega

theorem maxU64_maxU64_right (a b : BitVec 64) : maxU64 (maxU64 a b) b = maxU64 a b := by
  unfold maxU64; split_ifs <;> bv_omega

theorem le_maxU64_right (a b : BitVec 64) : b.toNat ≤ (maxU64 a b).toNat := by
  unfold maxU64; split_ifs <;> bv_omega

/-- The side that keeps its allocation keeps its eviction counter and takes the larger age. -/
theorem mergeGossip_of_keeps (hm : cy.findByHash oh = some m) (he : (cy.topics m).evictions ≠ oe)
    (hk : keepsAllocation (cy.topics m).age (cy.topics m).evictions oa oe) :
    ∃ c, mergeGossip subscribeOk cy ts oh oe oa = some c ∧
      (c.topics m).evictions = (cy.topics m).evictions ∧
      (c.topics m).age = maxU64 (cy.topics m).age oa := by
  simp only [mergeGossip, hm]
  rw [if_pos he, if_pos (of_decide_eq_true hk)]
  have hx := Node.topic_congr
    (show ((cy.scheduleGossipAsap m).stampEvent m ts).arbitration = cy.arbitration by simp) m
  exact ⟨_, rfl, by simp [hx.2.1], by simp [hx.2.2]⟩

/-- The side that gives up its allocation takes the larger age and reallocates to the remote
counter; what the reallocation leaves, the rest of the merge keeps, apart from the age. -/
theorem mergeGossip_of_loses (hm : cy.findByHash oh = some m) (he : (cy.topics m).evictions ≠ oe)
    (hk : keepsAllocation (cy.topics m).age (cy.topics m).evictions oa oe = false) :
    ∃ F : Node → Node, mergeGossip subscribeOk cy ts oh oe oa =
        (allocateTopic subscribeOk (cy.topicCount + 2)
          (cy.modifyTopic m fun t ↦ { t with age := maxU64 t.age oa }) m oe false).map F ∧
      ∀ c, ((F c).topics m).evictions = (c.topics m).evictions ∧
        ((F c).topics m).age = maxU64 (c.topics m).age oa := by
  simp only [mergeGossip, hm]
  rw [if_pos he, if_neg (by simpa [keepsAllocation] using hk)]
  refine ⟨_, rfl, fun c ↦ ?_⟩
  split <;> simp [Node.stampEvent, Node.stampLocalEvent, Node.updateLastGossipTime]

end Merge

/-- **The side that loses a divergence lands on the winner's counter.** A node with consistent
tables merging a heartbeat that announces its topic `b` under another eviction counter `oe`, and
that it loses, returns when no other topic holds the subject-ID of `oe`; when every other tenant
of that subject-ID ranks below the announced topic, it ends with `b` on `oe` and the larger age. -/
theorem mergeGossip_loser (subscribeOk : Nat → Bool) (ts : Int) {cy : Node}
    (hB : TopicTables cy) {b : Nat} (hb : b ∈ cy.topicsByHash) {oe oa : BitVec 64}
    (he : (cy.topics b).evictions ≠ oe)
    (hk : keepsAllocation (cy.topics b).age (cy.topics b).evictions oa oe = false) :
    ((∀ q ∈ cy.topicsByHash, q ≠ b →
        cy.subjectIdOf q ≠ topicGetSubjectId (cy.topics b).hash oe) →
      ∃ c, mergeGossip subscribeOk cy ts (cy.topics b).hash oe oa = some c) ∧
    ((∀ q ∈ cy.topicsByHash, q ≠ b → cy.subjectIdOf q = topicGetSubjectId (cy.topics b).hash oe →
        cy.rankOf q < rank oa (cy.topics b).hash) →
      ∀ c, mergeGossip subscribeOk cy ts (cy.topics b).hash oe oa = some c →
        (c.topics b).evictions = oe ∧ (c.topics b).age = maxU64 (cy.topics b).age oa) := by
  obtain ⟨F, hF, hFc⟩ := @mergeGossip_of_loses subscribeOk cy ts _ oe oa b
    (hB.findByHash_of_mem hb) he hk
  -- the node reallocates from: its topic with the larger age
  set C := cy.modifyTopic b fun t ↦ { t with age := maxU64 t.age oa }
  have hC : AllocInv C := hB.allocInv.modifyTopic (.inr fun _ ↦ ⟨rfl, rfl⟩) fun _ ↦ rfl
  have hCb : C.topics b = { cy.topics b with age := maxU64 (cy.topics b).age oa } := by simp [C]
  have hCq : ∀ q ≠ b, C.topics q = cy.topics q := fun q hq ↦ by simp [C, hq]
  have hCs : ∀ q ∈ C.topicsBySubjectId, q ∈ cy.topicsByHash :=
    fun q hq ↦ hB.subject_perm.mem_iff.1 hq
  refine ⟨fun hfree ↦ ?_, fun hlow c' hc' ↦ ?_⟩
  · -- a free subject-ID: the reallocation returns at once
    obtain ⟨c, hc⟩ := allocateTopic_of_free subscribeOk (d := cy.topicCount + 1) (e := oe) hC
      (hB.mem_subject hb) fun q hq hqb ↦ by
        rw [hCb, Node.subjectIdOf, hCq q hqb]; exact hfree q (hCs q hq) hqb
    exact ⟨F c, by rw [hF]; exact Option.map_eq_some'.2 ⟨c, hc, rfl⟩⟩
  · -- tenants ranked below the announced topic: the node lands on its counter
    rw [hF] at hc'
    obtain ⟨c, hc, rfl⟩ := Option.map_eq_some'.1 hc'
    have hce := allocateTopic_evictions_of_outranks subscribeOk hC (hB.mem_subject hb)
      (hB.mem_gossip hb) (fun q hq hqb hqs ↦ ?_) hc
    · have hca : (c.topics b).age = maxU64 (cy.topics b).age oa := by
        rw [(allocateTopic_spec subscribeOk _ _ _ _ false c hC (hB.mem_gossip hb)
          (by simpa using hB.mem_subject hb) hc).2.1.age, hCb]
      rw [(hFc c).1, (hFc c).2, hce, hca, maxU64_maxU64_right]
      exact ⟨rfl, rfl⟩
    · rw [hCb, Node.subjectIdOf, hCq q hqb] at hqs
      calc C.rankOf q = cy.rankOf q := by simp only [Node.rankOf, hCq q hqb]
        _ < rank oa (cy.topics b).hash := hlow q (hCs q hq) hqb hqs
        _ ≤ C.rankOf b := by
          rw [Node.rankOf, hCb]
          exact rank_mono_age _ (le_maxU64_right _ _)

/-! ## Two nodes -/

/-- What a node that sent a heartbeat for its topic `p` holds when the reply arrives: consistent
tables, with the topic as `age_topic` left it. -/
theorem TopicTables.publishHeartbeat_sender {cy cy' : Node} (h : TopicTables cy) {p : Nat}
    (hp : p ∈ cy.topicsByHash) {now : Int} {bytes : List (BitVec 8)} {t : Topic}
    (hpub : Cy.publishHeartbeat cy p now = some (cy', bytes))
    (ht : ageTopic (cy.topics p) now = some t) :
    TopicTables cy' ∧ p ∈ cy'.topicsByHash ∧ (cy'.topics p).hash = t.hash ∧
      (cy'.topics p).evictions = t.evictions ∧ (cy'.topics p).age = t.age := by
  have he : cy'.arbitration = (cy.modifyTopic p fun _ ↦ t).arbitration := by
    unfold Cy.publishHeartbeat at hpub
    rw [ht] at hpub
    split at hpub
    · rename_i t' _ htt _
      cases htt
      dsimp only at hpub
      split_ifs at hpub
      cases hpub
      simp only [Node.arbitration_updateLastGossipTime]
      exact Node.arbitration_modifyTopic ⟨rfl, rfl, rfl⟩
    · cases hpub
  have hk := Node.topic_congr he p
  simp only [Node.modifyTopic_topics_self] at hk
  have hh : cy'.topicsByHash = cy.topicsByHash := congrArg (·.1.1) he
  exact ⟨h.publishHeartbeat hp hpub, hh ▸ hp, hk⟩

/-- What two nodes `A'` and `B'`, which sent heartbeats for their topics `a` and `b` with the
values `tA` and `tB`, do with the transfers `trB` and `trA` that carry each other's heartbeat. -/
structure GossipOutcome (subscribeOk : Nat → Bool) (A' B' : Node) (a b : Nat) (tA tB : Topic)
    (trA trB : Transfer) : Prop where
  /-- A collision, two hashes on one subject-ID with neither node holding the other's topic:
  exactly one node reallocates its topic, and the other keeps its allocation. -/
  collision : tA.hash ≠ tB.hash →
    topicGetSubjectId tA.hash tA.evictions = topicGetSubjectId tB.hash tB.evictions →
    (∀ q ∈ A'.topicsByHash, (A'.topics q).hash ≠ tB.hash) →
    (∀ q ∈ B'.topicsByHash, (B'.topics q).hash ≠ tA.hash) →
    (A'.StandsOn subscribeOk trB ∧ B'.ReallocatesOn subscribeOk b trA) ∨
      (B'.StandsOn subscribeOk trA ∧ A'.ReallocatesOn subscribeOk a trB)
  /-- A divergence, one hash under two eviction counters: exactly one node yields. -/
  divergence : tA.hash = tB.hash → tA.evictions ≠ tB.evictions →
    A'.yieldsOn trB = !B'.yieldsOn trA
  /-- In a divergence that `B'` loses, `A'` keeps its counter and takes the larger age; `B'`
  returns when `A'`'s subject-ID is free there, and takes `A'`'s counter and the larger age when
  every other topic on that subject-ID ranks below `A'`'s. -/
  loser : tA.hash = tB.hash → tA.evictions ≠ tB.evictions → B'.yieldsOn trA →
    (∃ A'', onHeartbeat subscribeOk A' trB = some A'' ∧
      (A''.topics a).evictions = tA.evictions ∧ (A''.topics a).age = maxU64 tA.age tB.age) ∧
    ((∀ q ∈ B'.topicsByHash, q ≠ b →
        B'.subjectIdOf q ≠ topicGetSubjectId tA.hash tA.evictions) →
      ∃ B'', onHeartbeat subscribeOk B' trA = some B'') ∧
    ((∀ q ∈ B'.topicsByHash, q ≠ b →
        B'.subjectIdOf q = topicGetSubjectId tA.hash tA.evictions →
        B'.rankOf q < rank tA.age tA.hash) →
      ∀ B'', onHeartbeat subscribeOk B' trA = some B'' →
        (B''.topics b).evictions = tA.evictions ∧ (B''.topics b).age = maxU64 tA.age tB.age)

/-- **Two nodes that exchange heartbeats whose fields fit the wire agree on who yields.** Each
of `A` and `B` publishes a heartbeat for one of its topics, and merges a transfer carrying the
other's bytes. On a collision (distinct hashes on one subject-ID, neither node holding the
other's topic) one node's merge changes nothing that arbitration reads, and the other's
reallocates its topic with one more eviction, ending on another counter whenever it returns. On
a divergence (one hash, distinct eviction counters) exactly one of them yields. In a divergence
that `B` loses, `A` keeps its counter and both end with the larger age; `B` takes `A`'s counter
and the larger age whenever its reallocation returns, if every other topic on `A`'s subject-ID
at `B` ranks below `A`'s topic; and it does return when the subject-ID is free there. -/
theorem gossip_exactly_one_yields (subscribeOk : Nat → Bool) {A B A' B' : Node} {a b : Nat}
    {nowA nowB : Int} {bytesA bytesB : List (BitVec 8)} {tA tB : Topic} {trA trB : Transfer}
    (hA : TopicTables A) (hB : TopicTables B) (ha : a ∈ A.topicsByHash) (hb : b ∈ B.topicsByHash)
    (hpA : publishHeartbeat A a nowA = some (A', bytesA))
    (htA : ageTopic (A.topics a) nowA = some tA)
    (hpB : publishHeartbeat B b nowB = some (B', bytesB))
    (htB : ageTopic (B.topics b) nowB = some tB)
    (hfA : tA.age.toNat < 2 ^ 56 ∧ tA.evictions.toNat < 2 ^ 40)
    (hfB : tB.age.toNat < 2 ^ 56 ∧ tB.evictions.toNat < 2 ^ 40)
    (hrA : trA.payload = [bytesA]) (hrB : trB.payload = [bytesB]) :
    GossipOutcome subscribeOk A' B' a b tA tB trA trB := by
  obtain ⟨hA', ha', hAh, hAe, hAa⟩ := hA.publishHeartbeat_sender ha hpA htA
  obtain ⟨hB', hb', hBh, hBe, hBa⟩ := hB.publishHeartbeat_sender hb hpB htB
  -- each side decodes the other's values exactly
  obtain ⟨hbA, hdA, hdAh, hdAe, hdAa, -⟩ := publishHeartbeat_decodes hpA htA hfA.1 hfA.2
  obtain ⟨hbB, hdB, hdBh, hdBe, hdBa, -⟩ := publishHeartbeat_decodes hpB htB hfB.1 hfB.2
  have hyA : A'.yieldsOn trB = A'.yieldsTo tB.hash tB.evictions tB.age := by
    simp only [Node.yieldsOn, hrB, hdB, hdBh, hdBe, hdBa]
  have hyB : B'.yieldsOn trA = B'.yieldsTo tA.hash tA.evictions tA.age := by
    simp only [Node.yieldsOn, hrA, hdA, hdAh, hdAe, hdAa]
  have hoA : onHeartbeat subscribeOk A' trB =
      mergeGossip subscribeOk A' trB.timestamp tB.hash tB.evictions tB.age := by
    simp only [onHeartbeat, hrB, hdB, hdBh, hdBe, hdBa]
  have hoB : onHeartbeat subscribeOk B' trA =
      mergeGossip subscribeOk B' trA.timestamp tA.hash tA.evictions tA.age := by
    simp only [onHeartbeat, hrA, hdA, hdAh, hdAe, hdAa]
  -- a divergence is decided by the divergence rule on both sides
  have hdiv : tA.hash = tB.hash → tA.evictions ≠ tB.evictions →
      A'.yieldsTo tB.hash tB.evictions tB.age =
          !keepsAllocation tA.age tA.evictions tB.age tB.evictions ∧
        B'.yieldsTo tA.hash tA.evictions tA.age =
          !keepsAllocation tB.age tB.evictions tA.age tA.evictions := by
    intro heq hev
    constructor
    · rw [← heq, ← hAh, hA'.yieldsTo_divergence ha', hAe, hAa, decide_eq_true hev, Bool.true_and]
    · rw [heq, ← hBh, hB'.yieldsTo_divergence hb', hBe, hBa, decide_eq_true (Ne.symm hev),
        Bool.true_and]
  refine ⟨fun hne hsid hnA hnB ↦ ?_, fun heq hev ↦ ?_, fun heq hev hyes ↦ ?_⟩
  · -- a collision: `left_wins` from both sides, exactly one of which holds
    have hsA : topicGetSubjectId tB.hash tB.evictions = A'.subjectIdOf a := by
      rw [Node.subjectIdOf, hAh, hAe, hsid]
    have hsB : topicGetSubjectId tA.hash tA.evictions = B'.subjectIdOf b := by
      rw [Node.subjectIdOf, hBh, hBe, hsid]
    have hwA : A'.yieldsTo tB.hash tB.evictions tB.age = _ := hA'.yieldsTo_collision ha' hnA hsA
    have hwB : B'.yieldsTo tA.hash tA.evictions tA.age = _ := hB'.yieldsTo_collision hb' hnB hsB
    rw [hAa, hAh] at hwA
    rw [hBa, hBh] at hwB
    cases hw : leftWins tA.age tA.hash tB.age tB.hash
    · -- `A`'s topic loses: `A` reallocates, `B` keeps its allocation
      have hw' : leftWins tB.age tB.hash tA.age tA.hash = true := by
        rw [leftWins_eq_not (Ne.symm hne), hw]; rfl
      refine .inr ⟨hB'.standsOn_of_collision hoB hnB (by rw [hwB, hw']; rfl),
        hA'.reallocatesOn_of_collision ha' hoA hnA hsA (by rw [hAa, hAh]; exact hw)⟩
    · have hw' : leftWins tB.age tB.hash tA.age tA.hash = false := by
        rw [leftWins_eq_not (Ne.symm hne), hw]; rfl
      refine .inl ⟨hA'.standsOn_of_collision hoA hnA (by rw [hwA, hw]; rfl),
        hB'.reallocatesOn_of_collision hb' hoB hnB hsB (by rw [hBa, hBh]; exact hw')⟩
  · rw [hyA, hyB, (hdiv heq hev).1, (hdiv heq hev).2, keepsAllocation_swap hev, Bool.not_not]
  -- a divergence that `B` loses
  rw [hyB, (hdiv heq hev).2, Bool.not_eq_true'] at hyes
  have hkA : keepsAllocation tA.age tA.evictions tB.age tB.evictions := by
    rw [keepsAllocation_swap hev, hyes]; rfl
  have hfA' : A'.findByHash tB.hash = some a := by
    rw [← heq, ← hAh]; exact hA'.findByHash_of_mem ha'
  -- `B` lands on `A`'s counter with the larger age
  obtain ⟨hret, hland⟩ := mergeGossip_loser subscribeOk trA.timestamp hB' hb'
    (show (B'.topics b).evictions ≠ tA.evictions by rw [hBe]; exact Ne.symm hev)
    (show keepsAllocation (B'.topics b).age (B'.topics b).evictions tA.age tA.evictions = false by
      rw [hBa, hBe]; exact hyes)
  rw [hBh, ← heq] at hret
  rw [hBh, ← heq, hBa, maxU64_comm] at hland
  refine ⟨?_, fun hfree ↦ by rw [hoB]; exact hret hfree,
    fun hlow B'' hB'' ↦ hland hlow B'' (by rwa [hoB] at hB'')⟩
  -- `A` keeps its allocation and takes the larger age
  obtain ⟨c, hc, hce, hca⟩ := @mergeGossip_of_keeps subscribeOk _ trB.timestamp _ _ _ _
    hfA' (by rw [hAe]; exact hev) (by rw [hAa, hAe]; exact hkA)
  exact ⟨c, hoA ▸ hc, hce.trans hAe, hca.trans (by rw [hAa])⟩

/-- A second node on the Cyphal/CAN platform, with uid `2` and node-ID `6`, started at `100`. -/
def peerNode : Node :=
  match cyNew Env.can 2 6 [] 100 (Bloom64.empty 128) 0 0 0 0 0 (fun _ ↦ true) 0 with
  | some r => r.1
  | none => canNode

theorem peerNode_reachable : Reachable Env.can peerNode := by
  unfold peerNode
  split
  · exact Reachable.init ‹_›
  · exact canNode_reachable

/-- `peerNode` after a heartbeat from node `9` announcing its heartbeat topic with eviction
counter `1` and age `1`: it loses the divergence and takes both. -/
def evictedPeer : Node :=
  match ingestTopicTransfer Env.can (fun _ ↦ true) peerNode 0
      (Transfer.gossip 9 150 heartbeatName 7509 1 1) 0 1 with
  | some c => c
  | none => peerNode

theorem evictedPeer_reachable : Reachable Env.can evictedPeer := by
  unfold evictedPeer
  split
  · rename_i c h
    exact peerNode_reachable.step (.ingestTopicTransfer (by decide) h)
  · exact peerNode_reachable

theorem gossip_exactly_one_yields_evictedPeer : ∃ A' B' bytesA bytesB tA tB,
    TopicTables evictedPeer ∧ TopicTables canNode ∧ 0 ∈ evictedPeer.topicsByHash ∧
    0 ∈ canNode.topicsByHash ∧
    publishHeartbeat evictedPeer 0 200 = some (A', bytesA) ∧
    ageTopic (evictedPeer.topics 0) 200 = some tA ∧
    publishHeartbeat canNode 0 200 = some (B', bytesB) ∧ ageTopic (canNode.topics 0) 200 = some tB ∧
    (tA.age.toNat < 2 ^ 56 ∧ tA.evictions.toNat < 2 ^ 40) ∧
    (tB.age.toNat < 2 ^ 56 ∧ tB.evictions.toNat < 2 ^ 40) ∧
    GossipOutcome (fun _ ↦ true) A' B' 0 0 tA tB ⟨200, 6, 0, [bytesA]⟩ ⟨200, 5, 0, [bytesB]⟩ := by
  have hpA : (publishHeartbeat evictedPeer 0 200).isSome := by decide
  have hpB : (publishHeartbeat canNode 0 200).isSome := by decide
  have htA : ((ageTopic (evictedPeer.topics 0) 200).map fun t ↦
      decide (t.age.toNat < 2 ^ 56 ∧ t.evictions.toNat < 2 ^ 40)) = some true := by decide
  have htB : ((ageTopic (canNode.topics 0) 200).map fun t ↦
      decide (t.age.toNat < 2 ^ 56 ∧ t.evictions.toNat < 2 ^ 40)) = some true := by decide
  obtain ⟨⟨A', bytesA⟩, hpA⟩ := Option.isSome_iff_exists.1 hpA
  obtain ⟨⟨B', bytesB⟩, hpB⟩ := Option.isSome_iff_exists.1 hpB
  obtain ⟨tA, htA, hfA⟩ := Option.map_eq_some'.1 htA
  obtain ⟨tB, htB, hfB⟩ := Option.map_eq_some'.1 htB
  have hTA : TopicTables evictedPeer := TopicTables.of_reachable evictedPeer_reachable
  have hTB : TopicTables canNode := TopicTables.of_reachable canNode_reachable
  exact ⟨A', B', bytesA, bytesB, tA, tB, hTA, hTB, by decide, by decide, hpA, htA, hpB, htB,
    of_decide_eq_true hfA, of_decide_eq_true hfB,
    gossip_exactly_one_yields (fun _ ↦ true) hTA hTB (by decide) (by decide) hpA htA hpB htB
      (of_decide_eq_true hfA) (of_decide_eq_true hfB) rfl rfl⟩

/-- `agedNode` and `evictedPeer` disagree on the eviction counter of their heartbeat topic, and
the first is far older: exchanging heartbeats, the second should yield. But `agedNode` announces
its age `2 ^ 56` as `0`, so both keep their allocation and the divergence stays. -/
theorem gossip_both_win :
    Reachable Env.can agedNode ∧ Reachable Env.can evictedPeer ∧
      ((publishHeartbeat agedNode 0 200).bind fun a ↦ (publishHeartbeat evictedPeer 0 200).bind
        fun b ↦ (onHeartbeat (fun _ ↦ true) a.1 ⟨200, 6, 0, [b.2]⟩).bind fun a' ↦
          (onHeartbeat (fun _ ↦ true) b.1 ⟨200, 5, 0, [a.2]⟩).map fun b' ↦
            ((a.1.topics 0).age.toNat, (b.1.topics 0).age.toNat,
              a.1.yieldsOn ⟨200, 6, 0, [b.2]⟩, b.1.yieldsOn ⟨200, 5, 0, [a.2]⟩,
              (a'.topics 0).evictions.toNat, (b'.topics 0).evictions.toNat)) =
        some (2 ^ 56, 1, false, false, 0, 1) :=
  ⟨agedNode_reachable, evictedPeer_reachable, by decide⟩

/-! ## Two heartbeats on one node -/

/-- Whether merging the transfer leaves what arbitration reads alone: it carries no heartbeat, or
one about a topic the node does not hold and does not yield to. -/
def Node.withstands (cy : Node) (tr : Transfer) : Bool :=
  match receiveHeartbeat tr.payload with
  | none => true
  | some hb => (cy.findByHash hb.topicHash).isNone && !cy.yieldsTo hb.topicHash hb.evictions hb.age

theorem Node.withstands_congr {cy cy' : Node} (he : cy'.arbitration = cy.arbitration)
    (tr : Transfer) : cy'.withstands tr = cy.withstands tr := by
  simp only [withstands, findByHash_congr he, yieldsTo_congr he]

theorem onHeartbeat_of_withstands (subscribeOk : Nat → Bool) {cy : Node} {tr : Transfer}
    (h : cy.withstands tr) :
    ∃ c, onHeartbeat subscribeOk cy tr = some c ∧ c.arbitration = cy.arbitration := by
  unfold Node.withstands at h
  unfold onHeartbeat
  split
  · exact ⟨cy, rfl, rfl⟩
  · rename_i hb hr
    simp only [hr, Bool.and_eq_true, Option.isNone_iff_eq_none, Bool.not_eq_true'] at h
    exact mergeGossip_of_yieldsTo_false h.1 h.2

theorem onHeartbeat_bind_of_withstands (subscribeOk : Nat → Bool) {cy : Node}
    {tr₁ tr₂ : Transfer} (h₁ : cy.withstands tr₁) (h₂ : cy.withstands tr₂) :
    ∃ c, ((onHeartbeat subscribeOk cy tr₁).bind fun c ↦ onHeartbeat subscribeOk c tr₂) = some c ∧
      c.arbitration = cy.arbitration := by
  obtain ⟨c₁, e₁, a₁⟩ := onHeartbeat_of_withstands subscribeOk h₁
  obtain ⟨c₂, e₂, a₂⟩ := onHeartbeat_of_withstands subscribeOk (Node.withstands_congr a₁ tr₂ ▸ h₂)
  exact ⟨c₂, by rw [e₁, Option.some_bind, e₂], a₂.trans a₁⟩

/-- **Two heartbeats that the node withstands commute.** When neither transfer makes the node
yield, merging them in either order leaves the indices and every topic's hash, eviction counter
and age, hence every subject-ID, as they were. -/
theorem onHeartbeat_comm_of_withstands (subscribeOk : Nat → Bool) {cy : Node}
    {tr₁ tr₂ : Transfer} (h₁ : cy.withstands tr₁) (h₂ : cy.withstands tr₂) :
    ∃ c₁₂ c₂₁,
      ((onHeartbeat subscribeOk cy tr₁).bind fun c ↦ onHeartbeat subscribeOk c tr₂) = some c₁₂ ∧
      ((onHeartbeat subscribeOk cy tr₂).bind fun c ↦ onHeartbeat subscribeOk c tr₁) = some c₂₁ ∧
      c₁₂.arbitration = cy.arbitration ∧ c₂₁.arbitration = cy.arbitration := by
  obtain ⟨c₁₂, e₁₂, a₁₂⟩ := onHeartbeat_bind_of_withstands subscribeOk h₁ h₂
  obtain ⟨c₂₁, e₂₁, a₂₁⟩ := onHeartbeat_bind_of_withstands subscribeOk h₂ h₁
  exact ⟨c₁₂, c₂₁, e₁₂, e₂₁, a₁₂, a₂₁⟩

/-- `canNode` with the topics `"a"` and `"b"` created at time `100` on pointers `1` and `2`, on
the neighbouring subject-IDs `2145` and `2146`. -/
def pairNode : Node :=
  match topicNewHint Env.can (fun _ ↦ true) canNode 1 ['a'] subjectIdInvalid 100 0 with
  | some r =>
    match topicNewHint Env.can (fun _ ↦ true) r.1 2 ['b'] subjectIdInvalid 100 0 with
    | some r' => r'.1
    | none => canNode
  | none => canNode

theorem pairNode_reachable : Reachable Env.can pairNode := by
  unfold pairNode
  split
  · rename_i r h₁
    have hr : Reachable Env.can r.1 := canNode_reachable.step (.topicNewHint (by decide) h₁)
    split
    · rename_i r' h₂
      have hfree : ((topicNewHint Env.can (fun _ ↦ true) canNode 1 ['a'] subjectIdInvalid 100
          0).map fun r ↦ decide (2 ∉ r.1.topicsByHash)) = some true := by
        decide
      rw [h₁] at hfree
      exact hr.step (.topicNewHint (of_decide_eq_true (Option.some_injective _ hfree)) h₂)
    · exact canNode_reachable
  · exact canNode_reachable

theorem onHeartbeat_comm_of_withstands_pairNode :
    pairNode.withstands (Transfer.gossip 10 110 ['m'] 12388 0 0) ∧
      pairNode.withstands (Transfer.gossip 11 111 ['n'] 12488 0 0) ∧
      ∃ c₁₂ c₂₁,
        ((onHeartbeat (fun _ ↦ true) pairNode (Transfer.gossip 10 110 ['m'] 12388 0 0)).bind
          fun c ↦ onHeartbeat (fun _ ↦ true) c (Transfer.gossip 11 111 ['n'] 12488 0 0)) =
            some c₁₂ ∧
        ((onHeartbeat (fun _ ↦ true) pairNode (Transfer.gossip 11 111 ['n'] 12488 0 0)).bind
          fun c ↦ onHeartbeat (fun _ ↦ true) c (Transfer.gossip 10 110 ['m'] 12388 0 0)) =
            some c₂₁ ∧
        c₁₂.arbitration = pairNode.arbitration ∧ c₂₁.arbitration = pairNode.arbitration :=
  ⟨by decide, by decide, onHeartbeat_comm_of_withstands _ (by decide) (by decide)⟩

/-- Two heartbeats from the nodes `10` and `11` about topics `pairNode` does not hold, on the
subject-IDs `2145` of `"a"` and `2146` of `"b"`, each winning its collision. In this order the
first pushes `"a"` to `2146`, and `"a"` pushes `"b"` to `2147`; the second then meets `"a"` on
`2146`, which moves on to `2147` and pushes `"b"` to `2148`. In the other order each topic moves
once: `"b"` to `2147`, then `"a"` to `2146`. -/
theorem onHeartbeat_order_dependent :
    Reachable Env.can pairNode ∧ pairNode.findByHash 14433 = none ∧
      pairNode.findByHash 14434 = none ∧
      ((onHeartbeat (fun _ ↦ true) pairNode (Transfer.gossip 10 110 ['m'] 14433 0 0)).bind
        fun c ↦ onHeartbeat (fun _ ↦ true) c (Transfer.gossip 11 111 ['n'] 14434 0 0)).map
          (fun c ↦ (c.subjectIdOf 1, c.subjectIdOf 2)) = some (2147, 2148) ∧
      ((onHeartbeat (fun _ ↦ true) pairNode (Transfer.gossip 11 111 ['n'] 14434 0 0)).bind
        fun c ↦ onHeartbeat (fun _ ↦ true) c (Transfer.gossip 10 110 ['m'] 14433 0 0)).map
          (fun c ↦ (c.subjectIdOf 1, c.subjectIdOf 2)) = some (2146, 2147) :=
  ⟨pairNode_reachable, by decide, by decide, by decide, by decide⟩

end Cy
