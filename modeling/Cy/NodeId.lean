import Cy.Api

/-!
# Node-ID allocation over runs

A node without a node-ID listens to the bus, records the node-IDs it hears in the Bloom filter
(`mark_neighbor`), and when its heartbeat is due picks an ID whose bit is clear
(`pick_node_id`). A node that holds an ID gives it up only when a collision is reported.

## The filter over a run

`bloomValid_of_reachable` lifts the step lemmas of `Cy.Bloom` to every reachable node: the
calls that do not go through `mark_neighbor`, `pick_node_id` or `cy_new` leave the filter as it
is, which for the allocations inside them is `frame_allocateTopic`.

## The node-ID over a run

`nodeId_of_reachable` says that a node's ID is always valid or `CY_NODE_ID_INVALID`. The update
compares the ID with `node_id_max` by `>=` where `cy_has_node_id` uses `<=`, so a node that holds
the largest ID `node_id_max` picks another one at its first heartbeat and calls `node_id_set`
again without a collision: `update_repicks_nodeIdMax` is that run.

## A failed claim

`cy_update` stores the picked node-ID before it calls `node_id_set`, and returns the hook's error
without undoing it (`update_nodeIdSet_error`). The node then holds a node-ID below `node_id_max`,
which it keeps as long as no collision is reported, so the allocation is not tried again
(`update_nodeIdSet_error_not_retried`).
-/

namespace Cy

/-! ## Calls that leave the node-ID and the filter alone -/

/-- What the node-ID logic reads of a node: the node-ID, the pending collision and the filter. -/
def Node.idState (cy : Node) : Nat × Bool × Bloom64 := (cy.nodeId, cy.nodeIdCollision, cy.bloom)

section Frame

variable {cy cy' : Node}

theorem Node.bloom_eq_of_idState (h : cy'.idState = cy.idState) : cy'.bloom = cy.bloom :=
  congrArg (·.2.2) h

theorem Node.nodeId_eq_of_idState (h : cy'.idState = cy.idState) : cy'.nodeId = cy.nodeId :=
  congrArg (·.1) h

section
variable {p : Nat} {ts : Int} {f : Topic → Topic}
@[simp] theorem Node.idState_modifyTopic : (cy.modifyTopic p f).idState = cy.idState := rfl
@[simp] theorem Node.idState_stampEvent : (cy.stampEvent p ts).idState = cy.idState := rfl
@[simp] theorem Node.idState_stampLocalEvent : (cy.stampLocalEvent p ts).idState = cy.idState :=
  rfl
@[simp] theorem Node.idState_updateLastGossipTime :
    (cy.updateLastGossipTime p ts).idState = cy.idState := rfl
@[simp] theorem Node.idState_scheduleGossipAsap :
    (cy.scheduleGossipAsap p).idState = cy.idState := by
  unfold Node.scheduleGossipAsap; split <;> rfl
@[simp] theorem Node.idState_setFuture {fut : Future} : (cy.setFuture p fut).idState = cy.idState :=
  rfl
@[simp] theorem Node.idState_insertDeadline : (cy.insertDeadline p ts).idState = cy.idState := rfl
end

theorem Node.idState_allocateTopic {subscribeOk : Nat → Bool} {d p : Nat} {e : BitVec 64}
    {virgin : Bool} (h : allocateTopic subscribeOk d cy p e virgin = some cy') :
    cy'.idState = cy.idState := by
  have := congrArg Node.idState (frame_allocateTopic subscribeOk h); exact this

theorem Node.idState_mergeGossip {subscribeOk : Nat → Bool} {ts : Int} {oh oe oa : BitVec 64}
    (hm : mergeGossip subscribeOk cy ts oh oe oa = some cy') : cy'.idState = cy.idState := by
  simp only [mergeGossip] at hm
  split at hm
  · split at hm
    · cases hm; rfl
    · split at hm
      · cases hm; simp
      · obtain ⟨c, hc, rfl⟩ := Option.map_eq_some'.1 hm
        simpa using Node.idState_allocateTopic hc
  · split at hm
    · split at hm
      · cases hm; simp
      · obtain ⟨c, hc, rfl⟩ := Option.map_eq_some'.1 hm
        have := Node.idState_allocateTopic hc
        split <;> simpa using this
    · cases hm; rfl

theorem Node.idState_runCallbacks {subscribeOk : Nat → Bool} {p : Nat} {tr : Transfer} :
    ∀ {l : List Nat} {cy cy' : Node}, runCallbacks subscribeOk p tr l cy = some cy' →
      cy'.idState = cy.idState
  | [], _, _, h => by cases h; rfl
  | s :: l, cy, cy', h => by
    simp only [runCallbacks] at h
    split_ifs at h
    · obtain ⟨c, hc, h⟩ := Option.bind_eq_some.1 h
      rw [Node.idState_runCallbacks h]
      simp only [onHeartbeat] at hc
      split at hc
      · cases hc; rfl
      · exact Node.idState_mergeGossip hc
    · exact Node.idState_runCallbacks h

theorem Node.idState_retireTimedOutFutures {now : Int} :
    ∀ {n : Nat} {cy cy' : Node}, retireTimedOutFutures now n cy = some cy' →
      cy'.idState = cy.idState
  | 0, _, _, h => by cases h; rfl
  | n + 1, cy, cy', h => by
    simp only [retireTimedOutFutures] at h
    split at h
    · cases h; rfl
    · split_ifs at h
      · exact (Node.idState_retireTimedOutFutures h :)
      · cases h; rfl

theorem Node.idState_publishHeartbeat {p : Nat} {now : Int} {bytes : List (BitVec 8)}
    (h : publishHeartbeat cy p now = some (cy', bytes)) : cy'.idState = cy.idState := by
  unfold publishHeartbeat at h
  split at h
  · dsimp only at h
    split_ifs at h
    cases h; simp
  · cases h

theorem Node.idState_topicNewHint {env : Env} {subscribeOk : Nat → Bool} {p : Nat}
    {name : List Char} {hint : Nat} {now : Int} {r : BitVec 64} {created : Bool}
    (h : topicNewHint env subscribeOk cy p name hint now r = some (cy', created)) :
    cy'.idState = cy.idState := by
  rcases topicNewHint_cases h with ⟨rfl, -⟩ | ⟨-, rfl, -⟩ | ⟨cy1, _, cy4, _, hc1, -, hi, hc, rfl, -⟩
  · rfl
  · rfl
  · have hb4 : cy4.idState = cy1.idState := by
      simp only [Node.insertTopic] at hi
      split_ifs at hi
      cases hi; rfl
    rcases hc1 with rfl | rfl <;> exact (Node.idState_allocateTopic hc).trans hb4

theorem Node.idState_publish {env : Env} {p : Nat} {future : Option Nat}
    {responseDeadline res : Int} :
    (publish env cy p future responseDeadline res).1.idState = cy.idState := by
  simp only [publish]
  split
  · simp
  · split_ifs <;> simp

theorem Node.idState_subscribeWithTransferIdTimeout {p s extent fuel : Nat} {timeout res err : Int}
    {callback : Callback}
    (h : subscribeWithTransferIdTimeout cy p s extent timeout callback fuel res = some (cy', err)) :
    cy'.idState = cy.idState := by
  simp only [subscribeWithTransferIdTimeout, Option.ite_none_left_eq_some,
    Option.map_eq_some'] at h
  obtain ⟨-, l, -, h⟩ := h
  rw [← (Prod.mk.inj h).1]
  rfl

@[simp] theorem Node.nodeId_markNeighbor {nodeIdMax remoteNodeId : Nat} {r : BitVec 64} :
    (markNeighbor nodeIdMax cy remoteNodeId r).nodeId = cy.nodeId := rfl

theorem Node.nodeId_ingestTopicTransfer {env : Env} {subscribeOk : Nat → Bool} {p : Nat}
    {tr : Transfer} {r : BitVec 64} {fuel : Nat}
    (h : ingestTopicTransfer env subscribeOk cy p tr r fuel = some cy') :
    cy'.nodeId = cy.nodeId := by
  simp only [ingestTopicTransfer] at h
  split at h
  · cases h; rfl
  · obtain ⟨l, -, hr⟩ := Option.bind_eq_some.1 h
    rw [Node.nodeId_eq_of_idState (Node.idState_runCallbacks hr)]; rfl

theorem Node.nodeId_ingestTopicResponseTransfer {env : Env} {tr : Transfer} {r : BitVec 64}
    (h : ingestTopicResponseTransfer env cy tr r = some cy') : cy'.nodeId = cy.nodeId := by
  simp only [ingestTopicResponseTransfer] at h
  split_ifs at h
  · cases h; rfl
  · split at h
    · cases h; rfl
    · split at h
      · cases h; rfl
      · split_ifs at h
        cases h; rfl

end Frame

/-! ## The filter in every reachable state -/

namespace Bloom64

theorem Valid.ingestTopicTransfer {env : Env} {subscribeOk : Nat → Bool} {cy cy' : Node}
    {p : Nat} {tr : Transfer} {r : BitVec 64} {fuel : Nat} (h : cy.bloom.Valid)
    (hi : Cy.ingestTopicTransfer env subscribeOk cy p tr r fuel = some cy') : cy'.bloom.Valid := by
  simp only [Cy.ingestTopicTransfer] at hi
  have h1 := markNeighbor_valid h env.nodeIdMax tr.remoteNodeId r
  split at hi
  · cases hi; exact h1
  · obtain ⟨l, -, hr⟩ := Option.bind_eq_some.1 hi
    rw [Node.bloom_eq_of_idState (Node.idState_runCallbacks hr)]; exact h1

theorem Valid.ingestTopicResponseTransfer {env : Env} {cy cy' : Node} {tr : Transfer}
    {r : BitVec 64} (h : cy.bloom.Valid)
    (hi : Cy.ingestTopicResponseTransfer env cy tr r = some cy') : cy'.bloom.Valid := by
  have h1 := markNeighbor_valid h env.nodeIdMax tr.remoteNodeId r
  simp only [Cy.ingestTopicResponseTransfer] at hi
  split_ifs at hi
  · cases hi; exact h1
  · split at hi
    · cases hi; exact h1
    · split at hi
      · cases hi; exact h1
      · split_ifs at hi
        cases hi; exact h1

/-- The sweep and the delayed collision of `cy_update` leave the filter that its pick reads. -/
theorem bloom_processCollision {env : Env} {cy cy1 cy2 : Node} {now : Int} {calls2 : List Call}
    (h1 : retireTimedOutFutures now cy.futuresByDeadline.length cy = some cy1)
    (h2 : processCollision env cy1 now = (cy2, calls2)) : cy2.bloom = cy.bloom := by
  have e2 : (processCollision env cy1 now).1.bloom = cy2.bloom := by rw [h2]
  rw [← e2, show (processCollision env cy1 now).1.bloom = cy1.bloom by
    unfold processCollision; split_ifs <;> rfl]
  exact Node.bloom_eq_of_idState (Node.idState_retireTimedOutFutures h1)

theorem Valid.update {env : Env} {cy cy' : Node} {now : Int} {r₁ r₂ r₃ : BitVec 64}
    {setRes pubRes res : Int} {calls : List Call} (h : cy.bloom.Valid)
    (hu : Cy.update env cy now r₁ r₂ r₃ setRes pubRes = some (cy', res, calls)) :
    cy'.bloom.Valid := by
  obtain ⟨cy1, cy2, calls2, h1, h2, hrest⟩ := update_cases hu
  have hb2 : cy2.bloom.Valid := bloom_processCollision h1 h2 ▸ h
  rcases hrest with ⟨-, rfl, -, -⟩ | ⟨-, cy3, res3, calls3, hpick, -, hrest⟩
  · exact hb2
  have hb3 : cy3.bloom.Valid := by
    rcases hpick with ⟨-, n, b, hp, rfl, -, -⟩ | ⟨-, rfl, -, -⟩
    · exact pickNodeId_valid hb2 hp
    · exact hb2
  rcases hrest with ⟨-, rfl, -, -⟩ | ⟨-, p, cy4, bytes, -, h4, -, rfl, -, -⟩
  · exact hb3
  · rw [← Node.bloom_eq_of_idState (Node.idState_publishHeartbeat h4)] at hb3; exact hb3

theorem Valid.cyNew {env : Env} {uid : BitVec 64} {nodeId : Nat} {ns : List Char} {now : Int}
    {bloom : Bloom64} {r₁ r₂ : BitVec 64} {setRes : Int} {p s : Nat} {subscribeOk : Nat → Bool}
    {subRes res : Int} {calls : List Call} {cy : Node}
    (h : Cy.cyNew env uid nodeId ns now bloom r₁ r₂ setRes p s subscribeOk subRes =
      some (cy, res, calls)) : cy.bloom.Valid := by
  obtain ⟨h0, h64, cy1, res1, hc, hrest⟩ := cyNew_cases h
  have h1 : cy1.bloom.Valid := by
    rcases claimNodeId_cases hc with ⟨-, rfl, -⟩ | ⟨-, rfl, -⟩
    · exact purge_valid h0 h64
    · exact set_valid (purge_valid h0 h64) _
  rcases hrest with ⟨-, rfl⟩ | ⟨cy2, _, h2, hsub⟩
  · exact h1
  rw [← Node.bloom_eq_of_idState (Node.idState_topicNewHint h2)] at h1
  rcases hsub with ⟨-, _, h3⟩ | ⟨-, rfl⟩
  · rw [Node.bloom_eq_of_idState (Node.idState_subscribeWithTransferIdTimeout h3)]; exact h1
  · exact h1

/-- Every call keeps the Bloom invariant. -/
theorem Valid.step {env : Env} {cy cy' : Node} {calls : List Call} (h : cy.bloom.Valid)
    (hs : Step env cy calls cy') : cy'.bloom.Valid := by
  cases hs with
  | topicNewHint _ hn => rw [Node.bloom_eq_of_idState (Node.idState_topicNewHint hn)]; exact h
  | ingestTopicTransfer _ hi => exact h.ingestTopicTransfer hi
  | ingestTopicResponseTransfer hi => exact h.ingestTopicResponseTransfer hi
  | update hu => exact h.update hu
  | publish _ _ => rw [Node.bloom_eq_of_idState Node.idState_publish]; exact h
  | respond => exact h
  | subscribe _ _ hs =>
    rw [Node.bloom_eq_of_idState (Node.idState_subscribeWithTransferIdTimeout hs)]; exact h
  | notifyDiscriminatorCollision _ =>
    show (Cy.notifyDiscriminatorCollision _ _).bloom.Valid
    unfold Cy.notifyDiscriminatorCollision; split
    · exact h
    · split_ifs
      · rw [Node.bloom_eq_of_idState Node.idState_scheduleGossipAsap]; exact h
      · exact h
  | notifyNodeIdCollision => exact h

end Bloom64

/-- **The Bloom invariant holds in every reachable state**: `popcount` is the number of bits set
in the `n_bits / 64` words of the filter, and at most `n_bits`. -/
theorem bloomValid_of_reachable {env : Env} {cy : Node} (h : Reachable env cy) :
    cy.bloom.Valid :=
  Reachable.induct_on (fun h ↦ Bloom64.Valid.cyNew h) (fun _ hb hs ↦ hb.step hs) h

theorem bloomValid_canNode : canNode.bloom.Valid := bloomValid_of_reachable canNode_reachable

/-! ## The node-ID over a run -/

/-- The node-ID of a node is one the platform accepts (`cy_has_node_id`) or
`CY_NODE_ID_INVALID`. -/
def NodeIdValid (env : Env) (cy : Node) : Prop :=
  cy.nodeId ≤ env.nodeIdMax ∨ cy.nodeId = nodeIdInvalid

instance (env : Env) : DecidablePred (NodeIdValid env) :=
  fun cy ↦ inferInstanceAs (Decidable (cy.nodeId ≤ env.nodeIdMax ∨ cy.nodeId = nodeIdInvalid))

section NodeId

variable {env : Env} {cy cy' : Node}

theorem NodeIdValid.of_idState (h : NodeIdValid env cy) (he : cy'.idState = cy.idState) :
    NodeIdValid env cy' := by
  rw [NodeIdValid, Node.nodeId_eq_of_idState he]; exact h

/-- An update keeps the node-ID valid. The node-ID after the pick is below `node_id_max`, the
one it held or the one `pick_node_id` returned, so the assertion `node_id <= node_id_max` that
follows never fails. -/
theorem NodeIdValid.update {now : Int} {r₁ r₂ r₃ : BitVec 64} {setRes pubRes res : Int}
    {calls : List Call} (h : NodeIdValid env cy) (hM : 0 < env.nodeIdMax)
    (hu : update env cy now r₁ r₂ r₃ setRes pubRes = some (cy', res, calls)) :
    NodeIdValid env cy' := by
  obtain ⟨cy1, cy2, calls2, h1, h2, hrest⟩ := update_cases hu
  have h2' : NodeIdValid env cy2 := by
    have e2 : (processCollision env cy1 now).1 = cy2 := by rw [h2]
    have := h.of_idState (Node.idState_retireTimedOutFutures h1)
    rw [← e2]; unfold processCollision; split_ifs
    · exact .inr rfl
    all_goals exact this
  rcases hrest with ⟨-, rfl, -, -⟩ | ⟨-, cy3, res3, calls3, hpick, -, hrest⟩
  · exact h2'
  have hlt : cy3.nodeId < env.nodeIdMax := by
    rcases hpick with ⟨-, n, b, hp, rfl, -, -⟩ | ⟨hlt, rfl, -, -⟩
    · exact Bloom64.pickNodeId_lt hM hp
    · exact hlt
  rcases hrest with ⟨-, rfl, -, -⟩ | ⟨-, p, cy4, bytes, -, h4, -, rfl, -, -⟩
  · exact .inl hlt.le
  · exact .inl ((Node.nodeId_eq_of_idState (Node.idState_publishHeartbeat h4)).trans_lt hlt).le

theorem NodeIdValid.cyNew {uid : BitVec 64} {nodeId : Nat} {ns : List Char} {now : Int}
    {bloom : Bloom64} {r₁ r₂ : BitVec 64} {setRes : Int} {p s : Nat} {subscribeOk : Nat → Bool}
    {subRes res : Int} {calls : List Call}
    (h : cyNew env uid nodeId ns now bloom r₁ r₂ setRes p s subscribeOk subRes =
      some (cy, res, calls)) : NodeIdValid env cy := by
  obtain ⟨-, -, cy1, res1, hc, hrest⟩ := cyNew_cases h
  have h1 : NodeIdValid env cy1 := by
    have hn : cy1.nodeId = (Node.initial env uid nodeId ns now bloom).nodeId := by
      rcases claimNodeId_cases hc with ⟨-, rfl, -⟩ | ⟨-, rfl, -⟩ <;> rfl
    rw [NodeIdValid, hn]; simp only [Node.initial]; split_ifs with hn
    · exact .inl hn
    · exact .inr rfl
  rcases hrest with ⟨-, rfl⟩ | ⟨cy2, _, h2, hsub⟩
  · exact h1
  replace h1 := h1.of_idState (Node.idState_topicNewHint h2)
  rcases hsub with ⟨-, _, h3⟩ | ⟨-, rfl⟩
  · exact h1.of_idState ((Node.idState_subscribeWithTransferIdTimeout h3).trans rfl)
  · exact h1

/-- Every call keeps the node-ID valid or invalid. -/
theorem NodeIdValid.step {calls : List Call} (h : NodeIdValid env cy) (hM : 0 < env.nodeIdMax)
    (hs : Step env cy calls cy') : NodeIdValid env cy' := by
  cases hs with
  | topicNewHint _ hn => exact h.of_idState (Node.idState_topicNewHint hn)
  | ingestTopicTransfer _ hi =>
    rw [NodeIdValid, Node.nodeId_ingestTopicTransfer hi]; exact h
  | ingestTopicResponseTransfer hi =>
    rw [NodeIdValid, Node.nodeId_ingestTopicResponseTransfer hi]; exact h
  | update hu => exact h.update hM hu
  | publish _ _ => exact h.of_idState Node.idState_publish
  | respond => exact h
  | subscribe _ _ hs => exact h.of_idState (Node.idState_subscribeWithTransferIdTimeout hs)
  | notifyDiscriminatorCollision _ =>
    unfold Cy.notifyDiscriminatorCollision; split
    · exact h
    · split_ifs
      · exact h.of_idState Node.idState_scheduleGossipAsap
      · exact h
  | notifyNodeIdCollision => exact h

/-- `cy_new` refuses a platform with `node_id_max = 0`. -/
theorem Reachable.nodeIdMax_pos (h : Reachable env cy) : 0 < env.nodeIdMax := by
  induction h with
  | init h =>
    unfold Cy.cyNew at h
    split_ifs at h with hbad
    exact Nat.pos_of_ne_zero fun h0 ↦ hbad (.inr (.inl h0))
  | step _ _ ih => exact ih

/-- **The node-ID of every reachable node is valid or `CY_NODE_ID_INVALID`**, and a node-ID
`pick_node_id` returns on its filter is at most `node_id_max`: the assertion
`node_id <= node_id_max` that `cy_update` makes after its pick holds. -/
theorem nodeIdValid_of_reachable (h : Reachable env cy) :
    NodeIdValid env cy ∧ ∀ r₁ r₂ r₃ n b, pickNodeId cy.bloom env.nodeIdMax r₁ r₂ r₃ = some (n, b) →
      n ≤ env.nodeIdMax :=
  ⟨Reachable.induct_on (fun h ↦ NodeIdValid.cyNew h)
    (fun hr hv hs ↦ hv.step hr.nodeIdMax_pos hs) h,
    fun _ _ _ _ _ hp ↦ (Bloom64.pickNodeId_lt h.nodeIdMax_pos hp).le⟩

theorem nodeIdValid_canNode : NodeIdValid Env.can canNode ∧
    ∀ r₁ r₂ r₃ n b, pickNodeId canNode.bloom Env.can.nodeIdMax r₁ r₂ r₃ = some (n, b) → n ≤ 127 :=
  nodeIdValid_of_reachable canNode_reachable

/-- An update of a node below `node_id_max` with no collision pending keeps its node-ID and calls
no node-ID hook: the only hook it may call is the heartbeat's `topic_publish`. -/
theorem update_keeps_nodeId {now : Int} {r₁ r₂ r₃ : BitVec 64} {setRes pubRes res : Int}
    {calls : List Call} (hc : cy.nodeIdCollision = false) (hlt : cy.nodeId < env.nodeIdMax)
    (hu : update env cy now r₁ r₂ r₃ setRes pubRes = some (cy', res, calls)) :
    cy'.nodeId = cy.nodeId ∧ ∀ c ∈ calls, ∃ bytes, c = .heartbeat bytes := by
  obtain ⟨cy1, cy2, calls2, h1, h2, hrest⟩ := update_cases hu
  have he := Node.idState_retireTimedOutFutures h1
  have hc1 : cy1.nodeIdCollision = false := (congrArg (·.2.1) he).trans hc
  have hn1 : cy1.nodeId = cy.nodeId := Node.nodeId_eq_of_idState he
  rw [show processCollision env cy1 now = (cy1, []) by simp [processCollision, hc1],
    Prod.mk.injEq] at h2
  obtain ⟨rfl, rfl⟩ := h2
  rcases hrest with ⟨-, rfl, -, rfl⟩ | ⟨-, cy3, res3, calls3, hpick, -, hrest⟩
  · exact ⟨hn1, by simp⟩
  rcases hpick with ⟨hM, -⟩ | ⟨-, rfl, rfl, rfl⟩
  · omega
  rcases hrest with ⟨hneg, -⟩ | ⟨-, p, cy4, bytes, -, h4, -, rfl, -, rfl⟩
  · exact absurd hneg (lt_irrefl 0)
  · exact ⟨(Node.nodeId_eq_of_idState (Node.idState_publishHeartbeat h4)).trans hn1, by simp⟩

/-- **A node below `node_id_max` keeps its node-ID until a collision is reported**: no call
changes it or invokes `node_id_set` or `node_id_clear` while no collision is pending. -/
theorem Step.nodeId_eq_of_lt {calls : List Call} (hc : cy.nodeIdCollision = false)
    (hlt : cy.nodeId < env.nodeIdMax) (hs : Step env cy calls cy') :
    cy'.nodeId = cy.nodeId ∧ ∀ c ∈ calls, ∃ bytes, c = .heartbeat bytes := by
  cases hs with
  | update hu => exact update_keeps_nodeId hc hlt hu
  | topicNewHint _ hn => exact ⟨Node.nodeId_eq_of_idState (Node.idState_topicNewHint hn), by simp⟩
  | ingestTopicTransfer _ hi => exact ⟨Node.nodeId_ingestTopicTransfer hi, by simp⟩
  | ingestTopicResponseTransfer hi => exact ⟨Node.nodeId_ingestTopicResponseTransfer hi, by simp⟩
  | publish _ _ => exact ⟨Node.nodeId_eq_of_idState Node.idState_publish, by simp⟩
  | respond => exact ⟨rfl, by simp⟩
  | subscribe _ _ hs =>
    exact ⟨Node.nodeId_eq_of_idState (Node.idState_subscribeWithTransferIdTimeout hs), by simp⟩
  | notifyDiscriminatorCollision _ =>
    refine ⟨?_, by simp⟩
    unfold Cy.notifyDiscriminatorCollision; split
    · rfl
    · split_ifs
      · exact Node.nodeId_eq_of_idState Node.idState_scheduleGossipAsap
      · rfl
  | notifyNodeIdCollision => exact ⟨rfl, by simp⟩

/-- The heartbeat update of `canNode` at time `100` keeps its node-ID `5`. -/
theorem nodeId_eq_of_lt_canNode : ∃ cy' calls, Step Env.can canNode calls cy' ∧
    cy'.nodeId = canNode.nodeId ∧ ∀ c ∈ calls, ∃ bytes, c = .heartbeat bytes := by
  have h : (update Env.can canNode 100 0 0 0 0 0).isSome := by decide
  obtain ⟨⟨cy', res, calls⟩, hu⟩ := Option.isSome_iff_exists.1 h
  exact ⟨cy', calls, .update hu, Step.nodeId_eq_of_lt (by decide) (by decide) (.update hu)⟩

/-- A due update of a node that holds `node_id_max`, with no collision pending and no futures,
calls `node_id_set` first: `cy_update` tests `node_id >= node_id_max` where `cy_has_node_id`
tests `node_id <= node_id_max`. -/
theorem update_calls_nodeIdSet_of_nodeIdMax {now : Int} {r₁ r₂ r₃ : BitVec 64}
    {setRes pubRes res : Int} {calls : List Call} (hc : cy.nodeIdCollision = false)
    (hn : cy.nodeId = env.nodeIdMax) (hf : cy.futuresByDeadline = []) (ht : cy.heartbeatNext ≤ now)
    (hu : update env cy now r₁ r₂ r₃ setRes pubRes = some (cy', res, calls)) :
    calls.head? = some .nodeIdSet := by
  obtain ⟨cy1, cy2, calls2, h1, h2, hrest⟩ := update_cases hu
  rw [hf, List.length_nil, retireTimedOutFutures, Option.some_inj] at h1
  subst h1
  rw [show processCollision env cy now = (cy, []) by simp [processCollision, hc],
    Prod.mk.injEq] at h2
  obtain ⟨rfl, rfl⟩ := h2
  rcases hrest with ⟨hlt, -⟩ | ⟨-, cy3, res3, calls3, hpick, -, hrest⟩
  · exact absurd ht (not_le.2 hlt)
  rcases hpick with ⟨-, -, -, -, -, -, rfl⟩ | ⟨hlt, -⟩
  · rcases hrest with ⟨-, -, -, rfl⟩ | ⟨-, -, -, -, -, -, -, -, -, rfl⟩ <;> rfl
  · omega

theorem nodeIdSet_not_mem_processCollision {now : Int} :
    Call.nodeIdSet ∉ (processCollision env cy now).2 := by
  unfold processCollision; split_ifs <;> simp

/-- **An update whose `node_id_set` fails keeps the node-ID it picked.** It returns the error
with the picked node-ID, at most `node_id_max`, stored in the node: the node holds a node-ID,
although the allocation was not claimed. -/
theorem update_nodeIdSet_error {now : Int} {r₁ r₂ r₃ : BitVec 64} {setRes pubRes res : Int}
    {calls : List Call} (hu : update env cy now r₁ r₂ r₃ setRes pubRes = some (cy', res, calls))
    (hset : Call.nodeIdSet ∈ calls) (hneg : setRes < 0) :
    res = setRes ∧ cy'.nodeId ≤ env.nodeIdMax := by
  obtain ⟨cy1, cy2, calls2, h1, h2, hrest⟩ := update_cases hu
  have hpc := @nodeIdSet_not_mem_processCollision env cy1 now
  rw [h2] at hpc
  rcases hrest with ⟨-, -, -, rfl⟩ | ⟨-, cy3, res3, calls3, hpick, hle, hrest⟩
  · exact absurd hset hpc
  have hset3 : Call.nodeIdSet ∈ calls3 := by
    rcases hrest with ⟨-, -, -, he⟩ | ⟨-, p, cy4, bytes, -, -, -, -, -, he⟩
    · rwa [he] at hset
    · rw [he] at hset; simpa using hset
  have hres3 : res3 = setRes := by
    rcases hpick with ⟨-, -, -, -, -, h, -⟩ | ⟨-, -, -, rfl⟩
    · exact h
    · exact absurd hset3 hpc
  rcases hrest with ⟨-, rfl, rfl, -⟩ | ⟨hpos, -⟩
  · exact ⟨hres3, hle⟩
  · rw [hres3] at hpos; exact absurd hneg (not_lt.2 hpos)

end NodeId

/-- On Cyphal/CAN, a node created with node-ID `127` calls `node_id_set` and holds a valid
node-ID with no collision pending; its first `cy_update` picks node-ID `0` and calls
`node_id_set` again. -/
theorem update_repicks_nodeIdMax :
    ((cyNew Env.can 1 127 [] 0 (Bloom64.empty 128) 0 0 0 0 0 (fun _ ↦ true) 0).bind fun r ↦
      (update Env.can r.1 0 0 0 0 0 0).map fun r' ↦
        (r.1.nodeId, r.1.nodeIdCollision, r.2.2, r'.1.nodeId, r'.2.2.head?)) =
      some (127, false, [.nodeIdSet], 0, some .nodeIdSet) := by
  decide

/-- The node `cy_new` creates on Cyphal/CAN at time `0` without a node-ID: its first heartbeat is
due after the start delay, at `1000000`. -/
def anonymousNode : Node :=
  match cyNew Env.can 1 nodeIdInvalid [] 0 (Bloom64.empty 128) 0 0 0 0 0 (fun _ ↦ true) 0 with
  | some r => r.1
  | none => Node.initial Env.can 1 nodeIdInvalid [] 0 (Bloom64.empty 128)

theorem anonymousNode_reachable : Reachable Env.can anonymousNode := by
  unfold anonymousNode; split
  · exact Reachable.init ‹_›
  · rename_i hr
    have h : (cyNew Env.can 1 nodeIdInvalid [] 0 (Bloom64.empty 128) 0 0 0 0 0 (fun _ ↦ true)
      0).isSome := by decide
    rw [hr] at h; cases h

/-- The first update of `anonymousNode` picks node-ID `0` and calls `node_id_set`, which fails
with `-1`; `cy_update` returns `-1` and the node keeps node-ID `0`. No later update calls
`node_id_set` again: whatever its inputs, it keeps node-ID `0`. -/
theorem update_nodeIdSet_error_not_retried :
    Reachable Env.can anonymousNode ∧ Env.can.nodeIdMax < anonymousNode.nodeId ∧
      ∃ cy', update Env.can anonymousNode 1000000 0 0 0 (-1) 0 = some (cy', -1, [.nodeIdSet]) ∧
        cy'.nodeId = 0 ∧ cy'.nodeId ≤ Env.can.nodeIdMax ∧
        ∀ now r₁ r₂ r₃ setRes pubRes cy'' res calls,
          update Env.can cy' now r₁ r₂ r₃ setRes pubRes = some (cy'', res, calls) →
            cy''.nodeId = 0 ∧ Call.nodeIdSet ∉ calls := by
  have h : (update Env.can anonymousNode 1000000 0 0 0 (-1) 0).map
      (fun r ↦ (r.2.1, r.2.2, r.1.nodeId, r.1.nodeIdCollision)) =
        some (-1, [.nodeIdSet], 0, false) := by decide
  obtain ⟨⟨cy', res, calls⟩, hu, he⟩ := Option.map_eq_some'.1 h
  simp only [Prod.mk.injEq] at he
  obtain ⟨rfl, rfl, hn, hc⟩ := he
  refine ⟨anonymousNode_reachable, by decide, cy', hu, hn, by rw [hn]; decide,
    fun _ _ _ _ _ _ _ _ _ hu' ↦ ?_⟩
  obtain ⟨hn', hcalls⟩ := update_keeps_nodeId hc (by rw [hn]; decide) hu'
  exact ⟨hn'.trans hn, fun hm ↦ by obtain ⟨_, h⟩ := hcalls _ hm; cases h⟩

end Cy
