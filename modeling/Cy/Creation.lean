import Cy.Identity
import Cy.Tables

/-!
# Creating a topic and finding it again

`cy_topic_new_hint` composes the name, hashes it, optionally fits the eviction counter to a
subject-ID hint, inserts the topic into the hash and gossip indices and allocates it. This file
follows the paths of that call that do not end in an allocation, and the lookup by name.

## The hint

A hint no larger than `node_id_max` is fitted by incrementing the eviction counter until the
topic's subject-ID is the hint. The subject-IDs of a topic that is not pinned are the residues
modulo `6144`, so the loop ends within `2 * 6144` increments for a hint below `6144`
(`fitEvictions_isSome`) and never for a larger one (`fitEvictions_eq_none`): on a platform whose
`node_id_max` is `65534`, as on Cyphal/UDP, such a hint passes the guard and the call does not
return (`topicNewHint_hint_diverges`). A fitted counter is then overwritten, because the
allocation starts from the counter `0` (`topicNewHint_ignores_hint`).

## Failure exits

A call that creates nothing leaves the node as it was, except when the name is taken and no hint
was given: the node's event times are stamped before the name is found to be taken
(`topicNewHint_not_created`, `topicNewHint_duplicate_stamps`).

## Lookup

`cy_topic_find_by_name` hashes the name it is given, while `cy_topic_new_hint` hashes the
composed, canonical name. The two differ for every name that is not already canonical, such as
the default heartbeat topic name `"/7509"` (`topicFindByName_misses_heartbeat`).

A live topic is found by the name it carries. `TopicNames` says that every live topic's name has
`1` to `CY_TOPIC_NAME_MAX` characters and its hash is `topic_hash` of that name; it holds in
every reachable node, and with the hash index it gives that the lookups by hash and by
subject-ID are exact (`topicFind_of_reachable`) and that `cy_topic_find_by_name` of a live
topic's name returns that topic and no two live topics share a name
(`topicFindByName_of_reachable`).

## The heartbeat topic

`cy_update` asserts that the gossip index is not empty and that `topic_count` is positive, "we
always have at least the heartbeat topic". Once `cy_new` has set up the heartbeat topic it is
live for good, so both hold (`heartbeatTopic_of_reachable`).

The heartbeat period is `min (10 s / topic_count) 100 ms`, from the two periods `cy_new` sets and
no call changes (`periods_of_reachable`). With `1 ≤ topic_count ≤ 6144`, an update that publishes
a heartbeat schedules the next one between `1627 µs` and `100 ms` after the one that was due
(`update_heartbeatNext`).
-/

namespace Cy

/-- `cy_topic_find_by_name`: the topic whose hash is `topic_hash` of the name as given. -/
def topicFindByName (env : Env) (cy : Node) (name : List Char) : Option Nat :=
  cy.findByHash (topicHash env.rapidhash name)

/-! ## Fitting the eviction counter to the hint -/

section Fit

variable {hash : BitVec 64} {hint : Nat}

/-- The subject-ID of a topic that is not pinned lies in the dynamic pool. -/
theorem topicGetSubjectId_lt_of_not_pinned (hp : isPinned hash = false) (e : BitVec 64) :
    topicGetSubjectId hash e < topicSubjectCount := by
  rw [topicGetSubjectId_of_not_pinned hp]
  exact Nat.mod_lt _ (by decide)

theorem fitEvictions_spec : ∀ {n : Nat} {e e' : BitVec 64},
    fitEvictions hash hint n e = some e' → topicGetSubjectId hash e' = hint
  | 0, _, _, h => by cases h
  | n + 1, e, e', h => by
    unfold fitEvictions at h
    split at h
    · cases h; assumption
    · exact fitEvictions_spec h

/-- A hint that no eviction counter reaches is never fitted. -/
theorem fitEvictions_eq_none (h : ∀ e, topicGetSubjectId hash e ≠ hint) :
    ∀ (n : Nat) (e : BitVec 64), fitEvictions hash hint n e = none
  | 0, _ => rfl
  | n + 1, e => by rw [fitEvictions, if_neg (h e)]; exact fitEvictions_eq_none h n (e + 1)

/-- The loop finds a counter that is at most `n - 1` increments away. -/
theorem fitEvictions_isSome_of_exists : ∀ {n k : Nat} {e : BitVec 64}, k < n →
    topicGetSubjectId hash (e + BitVec.ofNat 64 k) = hint → (fitEvictions hash hint n e).isSome
  | 0, _, _, hk, _ => absurd hk (Nat.not_lt_zero _)
  | n + 1, k, e, hk, h => by
    unfold fitEvictions
    split
    · rfl
    · rename_i hne
      cases k with
      | zero => exact absurd (by simpa using h) hne
      | succ k =>
        refine fitEvictions_isSome_of_exists (k := k) (by omega) ?_
        rwa [add_one_add_ofNat]

/-- **The hint loop ends for a hint in the dynamic pool**, within the `2 * 6144` iterations the
model gives it: the counters `0, 1, …` reach every residue before and after the wrap of
`hash + evictions`, and one of the two stretches is `6144` long. -/
theorem fitEvictions_isSome (hp : isPinned hash = false) (hh : hint < topicSubjectCount) :
    (fitEvictions hash hint (2 * topicSubjectCount) 0).isSome := by
  have hn : hash.toNat < 2 ^ 64 := hash.isLt
  have h0 : (0 : BitVec 64).toNat = 0 := rfl
  simp only [topicSubjectCount] at hh ⊢
  by_cases hw : hash.toNat + 6144 ≤ 2 ^ 64
  · refine fitEvictions_isSome_of_exists (k := (hint + 6144 - hash.toNat % 6144) % 6144)
      (by omega) ?_
    simp only [topicGetSubjectId_of_not_pinned hp, BitVec.toNat_add, BitVec.toNat_ofNat, h0,
      topicSubjectCount]
    omega
  · refine fitEvictions_isSome_of_exists (k := 2 ^ 64 - hash.toNat + hint) (by omega) ?_
    simp only [topicGetSubjectId_of_not_pinned hp, BitVec.toNat_add, BitVec.toNat_ofNat, h0,
      topicSubjectCount]
    omega

end Fit

/-! ## Calls that create no topic -/

section Exits

variable {env : Env} {subscribeOk : Nat → Bool} {cy c : Node} {p : Nat} {name : List Char}
  {hint : Nat} {now : Int} {r : BitVec 64}

/-- **What a call that creates no topic leaves**: the node as it was, or, when no hint was given
and the name is taken, the node with its event times stamped. -/
theorem topicNewHint_not_created
    (h : topicNewHint env subscribeOk cy p name hint now r = some (c, false)) :
    c = cy ∨
      env.nodeIdMax < hint ∧ c = { cy with lastEventTs := now, lastLocalEventTs := now } := by
  rcases topicNewHint_cases h with ⟨rfl, -⟩ | ⟨hh, rfl, -⟩ | ⟨_, _, _, _, -, -, -, -, -, hf⟩
  · exact .inl rfl
  · exact .inr ⟨hh, rfl⟩
  · cases hf

/-- A hint of the dynamic pool's size or more, admitted by the guard, is never fitted: the call
does not return. -/
theorem topicNewHint_eq_none_of_hint (full : List Char)
    (hc : composeTopicName cy.namespace_ cy.name name = some full) (hlen : full ≠ [])
    (hcount : cy.topicCount < topicSubjectCount) (hg : hint ≤ env.nodeIdMax)
    (hp : isPinned (topicHash env.rapidhash (full.take topicNameMax)) = false)
    (hh : topicSubjectCount ≤ hint) :
    topicNewHint env subscribeOk cy p name hint now r = none := by
  have hl := List.length_take_le topicNameMax full
  have hl' : (full.take topicNameMax).length ≠ 0 := by simp [topicNameMax, hlen]
  have hfit : ∀ n e, fitEvictions (topicHash env.rapidhash (full.take topicNameMax)) hint n e =
      none :=
    fitEvictions_eq_none fun e he ↦ absurd (topicGetSubjectId_lt_of_not_pinned hp e) (by omega)
  simp only [topicNewHint, hc]
  rw [if_neg (by omega), if_pos hg]
  simp [newTopic, hp, hfit]

end Exits

/-! ## On the nodes `cy_new` creates -/

/-- Cyphal/UDP: node-IDs up to `65534` and transfer-IDs that do not wrap. -/
def Env.udp : Env := { Env.can with nodeIdMax := 65534, transferIdMask := BitVec.allOnes 64 }

/-- The node `cy_new` creates on Cyphal/UDP at time `100` with node-ID `5`, a filter of two words,
and the heartbeat topic and its subscription at `0`. -/
def udpNode : Node :=
  match cyNew Env.udp 1 5 [] 100 (Bloom64.empty 128) 0 0 0 0 0 (fun _ ↦ true) 0 with
  | some r => r.1
  | none => Node.initial Env.udp 1 5 [] 100 (Bloom64.empty 128)

theorem udpNode_reachable : Reachable Env.udp udpNode := by
  unfold udpNode; split
  · exact Reachable.init ‹_›
  · rename_i hr
    have h : (cyNew Env.udp 1 5 [] 100 (Bloom64.empty 128) 0 0 0 0 0 (fun _ ↦ true) 0).isSome := by
      decide
    rw [hr] at h; cases h

/-- On Cyphal/UDP the hint `6144` passes the guard `subject_id_hint <= node_id_max`, and no
eviction counter gives the topic `"a"` that subject-ID: `cy_topic_new_hint` does not return. -/
theorem topicNewHint_hint_diverges :
    Reachable Env.udp udpNode ∧ 6144 ≤ Env.udp.nodeIdMax ∧
      (∀ e, topicGetSubjectId (topicHash Env.udp.rapidhash ['a']) e ≠ 6144) ∧
      ∀ subscribeOk now r, topicNewHint Env.udp subscribeOk udpNode 1 ['a'] 6144 now r = none := by
  have hp : isPinned (topicHash Env.udp.rapidhash ['a']) = false := by decide
  refine ⟨udpNode_reachable, by decide, fun e he ↦ ?_, fun _ _ _ ↦ ?_⟩
  · exact absurd (topicGetSubjectId_lt_of_not_pinned hp e) (by rw [he]; decide)
  · exact topicNewHint_eq_none_of_hint ['a'] (by decide) (by decide) (by decide) (by decide) hp
      le_rfl

/-- The topic `"bxa"` is on subject-ID `98` with eviction counter `0`. Created on `canNode` with
the hint `100`, a free subject-ID that the counter `2` reaches, it still lands on `98`. -/
theorem topicNewHint_ignores_hint :
    Reachable Env.can canNode ∧ canNode.findBySubjectId 100 = none ∧
      isPinned (topicHash Env.can.rapidhash ['b', 'x', 'a']) = false ∧
      fitEvictions (topicHash Env.can.rapidhash ['b', 'x', 'a']) 100 (2 * topicSubjectCount) 0 =
        some 2 ∧
      topicGetSubjectId (topicHash Env.can.rapidhash ['b', 'x', 'a']) 2 = 100 ∧
      (topicNewHint Env.can (fun _ ↦ true) canNode 1 ['b', 'x', 'a'] 100 100 0).map
        (fun r ↦ (r.2, r.1.subjectIdOf 1)) = some (true, 98) :=
  ⟨canNode_reachable, by decide, by decide, by decide, by decide, by decide⟩

/-- `canNode` holds the heartbeat topic `"7509"`, stamped at `100`. Creating it again at `200`
without a hint fails, as the name is taken, and leaves the node stamped at `200`. -/
theorem topicNewHint_duplicate_stamps :
    Reachable Env.can canNode ∧ canNode.lastEventTs = 100 ∧ canNode.lastLocalEventTs = 100 ∧
      (topicNewHint Env.can (fun _ ↦ true) canNode 1 Env.can.heartbeatTopicName subjectIdInvalid
        200 0).map (fun r ↦ (r.2, r.1.lastEventTs, r.1.lastLocalEventTs)) =
          some (false, 200, 200) :=
  ⟨canNode_reachable, by decide, by decide, by decide⟩

/-- `cy_new` creates the heartbeat topic from the name `"/7509"`, which it hashes in its
canonical form `"7509"`, a pinned name. Looked up by the name it was created from, the topic is
not found; by its canonical name, it is. -/
theorem topicFindByName_misses_heartbeat :
    Reachable Env.can canNode ∧ Env.can.heartbeatTopicName = ['/', '7', '5', '0', '9'] ∧
      (canNode.topics 0).name = ['7', '5', '0', '9'] ∧ 0 ∈ canNode.topicsByHash ∧
      topicFindByName Env.can canNode Env.can.heartbeatTopicName = none ∧
      topicFindByName Env.can canNode ['7', '5', '0', '9'] = some 0 :=
  ⟨canNode_reachable, rfl, by decide, by decide, by decide, by decide⟩

/-! ## Finding a live topic -/

/-- **The names of the live topics.** Each is the name `cy_topic_new_hint` composed, of `1` to
`CY_TOPIC_NAME_MAX` characters, and the topic's hash is `topic_hash` of it. -/
structure TopicNames (env : Env) (cy : Node) : Prop where
  hash_eq : ∀ p ∈ cy.topicsByHash, (cy.topics p).hash = topicHash env.rapidhash (cy.topics p).name
  length_pos : ∀ p ∈ cy.topicsByHash, 0 < (cy.topics p).name.length
  length_le : ∀ p ∈ cy.topicsByHash, (cy.topics p).name.length ≤ topicNameMax

theorem Node.insertTopic_topics {cy cy4 : Node} {p : Nat} {t : Topic}
    (hi : cy.insertTopic p t = some cy4) :
    cy4.topics = Function.update cy.topics p { t with lastGossip := 0 } := by
  simp only [Node.insertTopic] at hi
  split_ifs at hi
  cases hi; rfl

namespace TopicNames

variable {env : Env} {cy cy' : Node}

/-- The names read only the live topics and their names and hashes. -/
theorem of_ident (h : TopicNames env cy) (he : cy'.ident.2 = cy.ident.2) : TopicNames env cy' := by
  have hl := Node.topicsByHash_eq_of_ident he
  have hq := Node.topics_eq_of_ident he
  refine ⟨fun p hp ↦ ?_, fun p hp ↦ ?_, fun p hp ↦ ?_⟩ <;> rw [hl] at hp
  · rw [(hq p).1, (hq p).2]; exact h.hash_eq p hp
  · rw [(hq p).1]; exact h.length_pos p hp
  · rw [(hq p).1]; exact h.length_le p hp

/-- Inserting a topic whose hash is that of its name, of an admissible length. -/
theorem insertTopic (h : TopicNames env cy) (hT : TopicTables cy) {p : Nat} {t : Topic} {cy4 : Node}
    (hp : p ∉ cy.topicsByHash) (hh : t.hash = topicHash env.rapidhash t.name)
    (hl : 0 < t.name.length ∧ t.name.length ≤ topicNameMax) (hi : cy.insertTopic p t = some cy4) :
    TopicNames env cy4 := by
  have hperm := (insertTopic_spec hT hp hi).2.2.2.2.1
  have key : ∀ q ∈ cy4.topicsByHash,
      (cy4.topics q).hash = topicHash env.rapidhash (cy4.topics q).name ∧
        0 < (cy4.topics q).name.length ∧ (cy4.topics q).name.length ≤ topicNameMax := by
    intro q hq
    rw [Node.insertTopic_topics hi]
    rcases List.mem_cons.1 (hperm.mem_iff.1 hq) with rfl | hq
    · simpa using ⟨hh, hl⟩
    · rw [Function.update_noteq (ne_of_mem_of_not_mem hq hp)]
      exact ⟨h.hash_eq q hq, h.length_pos q hq, h.length_le q hq⟩
  exact ⟨fun q hq ↦ (key q hq).1, fun q hq ↦ (key q hq).2.1, fun q hq ↦ (key q hq).2.2⟩

/-- **`cy_topic_new_hint` names its topic.** The new topic carries the composed name, cut to
`CY_TOPIC_NAME_MAX` and checked not to be empty, and the hash of that name; the hint changes
only the eviction counter and the event times. -/
theorem topicNewHint (h : TopicNames env cy) (hT : TopicTables cy) {subscribeOk : Nat → Bool}
    {p : Nat} {name : List Char} {hint : Nat} {now : Int} {r : BitVec 64} {created : Bool}
    (hp : p ∉ cy.topicsByHash)
    (ht : Cy.topicNewHint env subscribeOk cy p name hint now r = some (cy', created)) :
    TopicNames env cy' := by
  simp only [Cy.topicNewHint] at ht
  rcases hf : composeTopicName cy.namespace_ cy.name name with _ | full <;> rw [hf] at ht
  · cases ht; exact h
  dsimp only at ht
  by_cases hbad : (full.take topicNameMax).length = 0 ∨
    topicNameMax < (full.take topicNameMax).length ∨ topicSubjectCount ≤ cy.topicCount
  · rw [if_pos hbad] at ht; cases ht; exact h
  rw [if_neg hbad] at ht
  obtain ⟨⟨cy1, t1⟩, h1, ht⟩ := Option.bind_eq_some.1 ht
  -- the hint leaves the node's tables, and the topic's composed name and its hash
  have hc1 : (cy1 = cy ∨ cy1 = { cy with lastEventTs := now, lastLocalEventTs := now }) ∧
      t1.name = full.take topicNameMax ∧ t1.hash = topicHash env.rapidhash t1.name := by
    by_cases hh : hint ≤ env.nodeIdMax
    · rw [if_pos hh] at h1
      obtain ⟨e, -, he⟩ := Option.map_eq_some'.1 h1
      cases he; exact ⟨.inl rfl, rfl, rfl⟩
    · rw [if_neg hh] at h1; cases h1; exact ⟨.inr rfl, rfl, rfl⟩
  obtain ⟨hcy1, hname, hhash⟩ := hc1
  have hT1 : TopicTables cy1 ∧ TopicNames env cy1 := by
    rcases hcy1 with rfl | rfl
    · exact ⟨hT, h⟩
    · exact ⟨hT.of_tables rfl, h.of_ident rfl⟩
  have hp1 : p ∉ cy1.topicsByHash := by rcases hcy1 with rfl | rfl <;> exact hp
  rcases hi : cy1.insertTopic p t1 with _ | cy4 <;> rw [hi] at ht
  · cases ht; exact hT1.2
  · obtain ⟨c, hc, he⟩ := Option.map_eq_some'.1 ht
    cases he
    have h4 := hT1.2.insertTopic hT1.1 hp1 hhash (by rw [hname]; omega) hi
    exact (h4.of_ident (congrArg (·.2) (Node.ident_allocateTopic hc))).of_ident rfl

theorem step {calls : List Call} (hr : Reachable env cy) (h : TopicNames env cy)
    (hs : Step env cy calls cy') : TopicNames env cy' := by
  cases hs with
  | topicNewHint hp ht => exact h.topicNewHint (TopicTables.of_reachable hr) hp ht
  | ingestTopicTransfer _ hi =>
    exact h.of_ident (congrArg (·.2) (Node.ident_ingestTopicTransfer hi))
  | ingestTopicResponseTransfer hi =>
    exact h.of_ident (congrArg (·.2) (Node.ident_ingestTopicResponseTransfer hi))
  | update hu => exact h.of_ident (congrArg (·.2) (Node.ident_update hu))
  | publish _ _ => exact h.of_ident (congrArg (·.2) Node.ident_publish)
  | respond => exact h
  | subscribe _ _ hs => exact h.of_ident (Node.ident_subscribeWithTransferIdTimeout hs)
  | notifyDiscriminatorCollision _ =>
    exact h.of_ident (congrArg (·.2) (Node.ident_notifyDiscriminatorCollision _))
  | notifyNodeIdCollision => exact h.of_ident rfl

theorem cyNew {uid : BitVec 64} {nodeId : Nat} {ns : List Char} {now : Int} {bloom : Bloom64}
    {r₁ r₂ : BitVec 64} {setRes : Int} {p s : Nat} {subscribeOk : Nat → Bool} {subRes res : Int}
    {calls : List Call}
    (h : Cy.cyNew env uid nodeId ns now bloom r₁ r₂ setRes p s subscribeOk subRes =
      some (cy, res, calls)) : TopicNames env cy := by
  obtain ⟨-, -, cy1, res1, hc, hrest⟩ := cyNew_cases h
  -- a fresh node has no topics
  have h1 : TopicTables cy1 ∧ TopicNames env cy1 ∧ cy1.topicsByHash = [] := by
    rcases claimNodeId_cases hc with ⟨-, rfl, -⟩ | ⟨-, rfl, -⟩ <;>
      exact ⟨(topicTables_initial env uid nodeId ns now bloom).of_tables rfl,
        ⟨fun _ h ↦ absurd h (List.not_mem_nil _), fun _ h ↦ absurd h (List.not_mem_nil _),
          fun _ h ↦ absurd h (List.not_mem_nil _)⟩, rfl⟩
  rcases hrest with ⟨-, rfl⟩ | ⟨cy2, _, h2, hsub⟩
  · exact h1.2.1
  have h2' := h1.2.1.topicNewHint h1.1 (h1.2.2 ▸ List.not_mem_nil p) h2
  rcases hsub with ⟨-, _, h3⟩ | ⟨-, rfl⟩
  · exact (show TopicNames env { cy2 with heartbeatTopic := some p } from ⟨h2'.1, h2'.2, h2'.3⟩
      ).of_ident (Node.ident_subscribeWithTransferIdTimeout h3)
  · exact h2'

end TopicNames

theorem topicNames_of_reachable {env : Env} {cy : Node} (h : Reachable env cy) :
    TopicNames env cy := by
  induction h with
  | init h => exact TopicNames.cyNew h
  | step hr hs ih => exact ih.step hr hs

/-- **Lookups by hash and by subject-ID are exact, in every reachable state.**
`cy_topic_find_by_hash` returns a topic exactly when it is live and has the hash, and
`cy_topic_find_by_subject_id` exactly when it is live and holds the subject-ID: both assertions
on the topic found hold, and no live topic is missed. -/
theorem topicFind_of_reachable {env : Env} {cy : Node} (hr : Reachable env cy) :
    (∀ hash p, cy.findByHash hash = some p ↔ p ∈ cy.topicsByHash ∧ (cy.topics p).hash = hash) ∧
      ∀ sid p, cy.findBySubjectId sid = some p ↔ p ∈ cy.topicsByHash ∧ cy.subjectIdOf p = sid := by
  have h := TopicTables.of_reachable hr
  refine ⟨fun hash p ↦ ⟨fun hf ↦ ?_, fun ⟨hp, he⟩ ↦ ?_⟩,
    fun sid p ↦ ⟨fun hf ↦ ?_, fun ⟨hp, he⟩ ↦ ?_⟩⟩
  · have e : cy.hashOf p = hash.toNat := Index.keyCmp_eq_eq.1 (Index.find_cmp hf)
    exact ⟨Index.find_mem hf, BitVec.eq_of_toNat_eq e⟩
  · exact Index.find_keyCmp_of_mem h.hash_sorted hp (congrArg BitVec.toNat he)
  · exact ⟨h.subject_perm.mem_iff.1 (Index.find_mem hf), Index.keyCmp_eq_eq.1 (Index.find_cmp hf)⟩
  · exact Index.find_keyCmp_of_mem h.subject_sorted (h.subject_perm.mem_iff.2 hp) he

theorem topicFind_canNode : canNode.findByHash (canNode.topics 0).hash = some 0 :=
  ((topicFind_of_reachable canNode_reachable).1 _ 0).2 ⟨by decide, rfl⟩

/-- **Every live topic is found by its own name.** In every reachable state, the name of a live
topic has `1` to `CY_TOPIC_NAME_MAX` characters, `cy_topic_find_by_name` of that name returns the
topic, and no other live topic has the same name. -/
theorem topicFindByName_of_reachable {env : Env} {cy : Node} (hr : Reachable env cy) :
    ∀ p ∈ cy.topicsByHash, 0 < (cy.topics p).name.length ∧
      (cy.topics p).name.length ≤ topicNameMax ∧
      topicFindByName env cy (cy.topics p).name = some p ∧
      ∀ q ∈ cy.topicsByHash, (cy.topics q).name = (cy.topics p).name → q = p := by
  intro p hp
  have hT := TopicTables.of_reachable hr
  have hN := topicNames_of_reachable hr
  refine ⟨hN.length_pos p hp, hN.length_le p hp, ?_, fun q hq he ↦ ?_⟩
  · rw [topicFindByName, ← hN.hash_eq p hp]
    exact Index.find_keyCmp_of_mem hT.hash_sorted hp rfl
  · -- a name determines the hash, and the hash index holds each hash once
    exact Index.eq_of_key_eq hT.hash_sorted hq hp
      (by simp only [Node.hashOf, hN.hash_eq q hq, hN.hash_eq p hp, he])

theorem topicFindByName_canNode :
    topicFindByName Env.can canNode (canNode.topics 0).name = some 0 :=
  (topicFindByName_of_reachable canNode_reachable 0 (by decide)).2.2.1

/-! ## The heartbeat topic -/

/-- The heartbeat topic, once `cy_new` has set it up, is live: `cy_new` sets it only after
creating it, and no call removes a topic or changes the heartbeat topic. -/
theorem heartbeatLive_of_reachable {env : Env} {cy : Node} (hr : Reachable env cy) :
    ∀ h, cy.heartbeatTopic = some h → h ∈ cy.topicsByHash := by
  induction hr with
  | init h =>
    obtain ⟨-, -, cy1, res1, hc, hrest⟩ := cyNew_cases h
    have h1 : cy1.heartbeatTopic = none ∧ cy1.topicsByHash = [] := by
      rcases claimNodeId_cases hc with ⟨-, rfl, -⟩ | ⟨-, rfl, -⟩ <;> exact ⟨rfl, rfl⟩
    rcases hrest with ⟨-, rfl⟩ | ⟨cy2, created, h2, ⟨rfl, res', h3⟩ | ⟨-, rfl⟩⟩
    · intro q hq; rw [h1.1] at hq; cases hq
    · obtain ⟨-, -, -, hp, -⟩ := Node.ident_topicNewHint (h1.2 ▸ List.not_mem_nil _) h2
      have he := Node.ident_subscribeWithTransferIdTimeout h3
      intro q hq
      rw [Node.heartbeatTopic_eq_of_ident he] at hq
      cases hq
      exact Node.topicsByHash_eq_of_ident he ▸ hp rfl
    · obtain ⟨-, hb, -⟩ := Node.ident_topicNewHint (h1.2 ▸ List.not_mem_nil _) h2
      intro q hq; rw [Node.heartbeatTopic_eq_of_setup hb, h1.1] at hq; cases hq
  | step _ hs ih =>
    obtain ⟨k₁, k₂⟩ := Step.kept hs
    exact fun q hq ↦ (k₂ q (ih q (Node.heartbeatTopic_eq_of_setup k₁ ▸ hq))).1

/-- **"We always have at least the heartbeat topic."** In every reachable node in which `cy_new`
set up the heartbeat topic, that topic is live, the gossip index has a first topic and
`topic_count` is positive: the assertions `t != NULL` and `cy->topic_count > 0` of `cy_update`
hold, and its division by `topic_count` is by a positive number. -/
theorem heartbeatTopic_of_reachable {env : Env} {cy : Node} (hr : Reachable env cy) {h : Nat}
    (hh : cy.heartbeatTopic = some h) :
    h ∈ cy.topicsByHash ∧ (∃ p, Index.min cy.topicsByGossipTime = some p) ∧ 0 < cy.topicCount := by
  have hT := TopicTables.of_reachable hr
  have hl := heartbeatLive_of_reachable hr h hh
  refine ⟨hl, ?_, hT.count_eq ▸ List.length_pos_of_mem hl⟩
  cases hg : cy.topicsByGossipTime with
  | nil => exact absurd (hT.gossip_perm.mem_iff.2 hl) (by rw [hg]; exact List.not_mem_nil _)
  | cons p _ => exact ⟨p, rfl⟩

theorem heartbeatTopic_canNode :
    0 ∈ canNode.topicsByHash ∧ (∃ p, Index.min canNode.topicsByGossipTime = some p) ∧
      0 < canNode.topicCount :=
  heartbeatTopic_of_reachable canNode_reachable (by decide)

end Cy
