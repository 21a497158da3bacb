import Cy.Futures
import Cy.Names

/-!
# The public API and the runs of a node

The calls of `cy.h` that change a node, each as a function of the node and of the values the
platform returns to it, and the step relation they generate.

## Oracles

Each call reads the clock once (`now`); every draw of the PRNG (`random_u64`, a hash of the
platform's `prng()` and the UID) is an input of its own; the platform hooks that return a value
(`topic_new`, `topic_subscribe`, `topic_publish`, `node_id_set`) are inputs too. Walks over a
subscription list take a bound on its length: the step relation lets the bound be anything, so
a step exists exactly when the list is finite, as the `while` loops of the source require.

## Runs

`Step env cy calls cy'` is one API call from `cy` to `cy'`, with the platform hooks with side
effects on the node-ID that it invoked; `Reachable env` is what `cy_new` and any sequence of
steps produce. Calls that abort on a failed assertion, or do not return, make no step.
-/

namespace Cy

/-! ## Topics -/

/-- The hint loop of `cy_topic_new_hint`: from eviction counter `e`, within `n` increments, the
first at which the hash lands on `hint`; `none` if there is none, where the loop runs forever. -/
def fitEvictions (hash : BitVec 64) (hint : Nat) : Nat → BitVec 64 → Option (BitVec 64)
  | 0, _ => none
  | n + 1, e => if topicGetSubjectId hash e = hint then some e else fitEvictions hash hint n (e + 1)

/-- The topic `cy_topic_new_hint` fills in before the hint is applied. -/
def newTopic (name : List Char) (hash : BitVec 64) (now : Int) (r : BitVec 64) : Topic :=
  { Topic.zero with name := name, hash := hash, agedAt := now, pubTransferId := r }

/-- The insertions of `cy_topic_new_hint`: the topic `t` at `p` enters the hash index, unless
its hash is taken (`none`), and then the gossip index with `last_gossip = 0`. -/
def Node.insertTopic (cy : Node) (p : Nat) (t : Topic) : Option Node :=
  let cy2 := { cy with topics := Function.update cy.topics p t }
  let r := Index.findOrInsert (Index.keyCmp cy2.hashOf t.hash.toNat) p cy2.topicsByHash
  if r.1 ≠ p then none
  else
    let cy3 := { cy2 with
      topicsByHash := r.2
      topics := Function.update cy.topics p { t with lastGossip := 0 } }
    some { cy3 with
      topicsByGossipTime :=
        (Index.findOrInsert (Index.stableCmp cy3.lastGossipOf 0) p cy3.topicsByGossipTime).2 }

/-- `cy_topic_new_hint` with the name `name`, the platform's `topic_new` having returned the
object `p`, `r` being the PRNG draw for the first transfer-ID. The node and whether a topic was
created (`NULL` otherwise); `none` when an assertion fails or the hint loop does not return. -/
def topicNewHint (env : Env) (subscribeOk : Nat → Bool) (cy : Node) (p : Nat) (name : List Char)
    (hint : Nat) (now : Int) (r : BitVec 64) : Option (Node × Bool) :=
  match composeTopicName cy.namespace_ cy.name name with
  | none => some (cy, false)
  | some full =>
    let nm := full.take topicNameMax
    let t0 := newTopic nm (topicHash env.rapidhash nm) now r
    if nm.length = 0 ∨ topicNameMax < nm.length ∨ topicSubjectCount ≤ cy.topicCount then
      some (cy, false)
    else
      let hinted : Option (Node × Topic) :=
        if hint ≤ env.nodeIdMax then
          (if isPinned t0.hash then some 0
            else fitEvictions t0.hash hint (2 * topicSubjectCount) 0).map fun e ↦ (cy, { t0 with
              evictions := e, lastEventTs := 0, lastLocalEventTs := 0 })
        else some ({ cy with lastEventTs := now, lastLocalEventTs := now },
          { t0 with lastEventTs := now, lastLocalEventTs := now })
      hinted.bind fun (cy1, t1) ↦
        match cy1.insertTopic p t1 with
        | none => some (cy1, false)
        | some cy4 =>
          (allocateTopic subscribeOk (cy4.topicCount + 2) cy4 p 0 true).map fun c ↦
            ({ c with topicCount := c.topicCount + 1 }, true)

/-- **What `cy_topic_new_hint` can do.** It creates nothing and leaves the node as it was; or,
with no hint and the name taken, it stamps the node's event times; or it inserts a topic into a
node that is the one given or that stamped one, allocates it, and counts it. -/
theorem topicNewHint_cases {env : Env} {subscribeOk : Nat → Bool} {cy cy' : Node} {p : Nat}
    {name : List Char} {hint : Nat} {now : Int} {r : BitVec 64} {created : Bool}
    (h : topicNewHint env subscribeOk cy p name hint now r = some (cy', created)) :
    (cy' = cy ∧ created = false) ∨
    (env.nodeIdMax < hint ∧ cy' = { cy with lastEventTs := now, lastLocalEventTs := now } ∧
      created = false) ∨
    ∃ cy1 t1 cy4 c, (cy1 = cy ∨ cy1 = { cy with lastEventTs := now, lastLocalEventTs := now }) ∧
      cy.topicCount < topicSubjectCount ∧ cy1.insertTopic p t1 = some cy4 ∧
      allocateTopic subscribeOk (cy4.topicCount + 2) cy4 p 0 true = some c ∧
      cy' = { c with topicCount := c.topicCount + 1 } ∧ created = true := by
  simp only [topicNewHint] at h
  rcases hf : composeTopicName cy.namespace_ cy.name name with _ | full <;> rw [hf] at h
  · cases h; exact .inl ⟨rfl, rfl⟩
  dsimp only at h
  by_cases hbad : (full.take topicNameMax).length = 0 ∨
    topicNameMax < (full.take topicNameMax).length ∨ topicSubjectCount ≤ cy.topicCount
  · rw [if_pos hbad] at h; cases h; exact .inl ⟨rfl, rfl⟩
  rw [if_neg hbad] at h
  obtain ⟨⟨cy1, t1⟩, h1, h⟩ := Option.bind_eq_some.1 h
  have hc1 : cy1 = cy ∨ env.nodeIdMax < hint ∧
      cy1 = { cy with lastEventTs := now, lastLocalEventTs := now } := by
    by_cases hh : hint ≤ env.nodeIdMax
    · rw [if_pos hh] at h1
      obtain ⟨e, -, he⟩ := Option.map_eq_some'.1 h1
      cases he; exact .inl rfl
    · rw [if_neg hh] at h1; cases h1; exact .inr ⟨not_le.1 hh, rfl⟩
  rcases hi : cy1.insertTopic p t1 with _ | cy4 <;> rw [hi] at h
  · cases h
    rcases hc1 with rfl | ⟨hh, rfl⟩
    · exact .inl ⟨rfl, rfl⟩
    · exact .inr (.inl ⟨hh, rfl, rfl⟩)
  · obtain ⟨c, hc, he⟩ := Option.map_eq_some'.1 h
    cases he
    exact .inr (.inr ⟨cy1, t1, cy4, c, hc1.imp_right And.right, by omega, hi, hc, rfl, rfl⟩)

/-! ## Subscriptions -/

/-- `CY_TRANSFER_ID_TIMEOUT_DEFAULT_us`. -/
def transferIdTimeoutDefault : Int := 2000000

/-- `cy_subscribe_with_transfer_id_timeout` of the subscription object `s` to the topic at `p`;
`fuel` bounds the walks over the subscription list and `res` is the platform's answer to
`topic_subscribe`. `none` when the topic has no name, which the call asserts, or a walk runs out.
The object is zeroed before the list is searched for it, so its `next` is `NULL` during the
walks. -/
def subscribeWithTransferIdTimeout (cy : Node) (p s extent : Nat) (timeout : Int)
    (callback : Callback) (fuel : Nat) (res : Int) : Option (Node × Int) :=
  let t := cy.topics p
  if t.name = [] then none
  else
    let t1 := { t with
      subscribed := t.subscribed &&
        !(decide (t.subExtent < extent) || decide (t.subTransferIdTimeout < timeout))
      subTransferIdTimeout := max t.subTransferIdTimeout timeout
      subExtent := max t.subExtent extent }
    let subs1 := Function.update cy.subs s ⟨none, p, callback⟩
    (walkSubs subs1 fuel t1.subList).map fun l ↦
      let (head, subs2) : Option Nat × (Nat → Subscription) :=
        if s ∈ l then (t1.subList, subs1)
        else match l.getLast? with
          | none => (some s, subs1)
          | some last => (t1.subList, Function.update subs1 last { subs1 last with next := some s })
      let t2 := { t1 with subList := head }
      let (t3, err) : Topic × Int :=
        if t2.subscribed then (t2, 0) else ({ t2 with subscribed := decide (0 ≤ res) }, res)
      ({ cy with subs := subs2, topics := Function.update cy.topics p t3 }, err)

/-! ## Reception -/

/-- The callback loop of `cy_ingest_topic_transfer` over the subscriptions `l` of the topic at
`p`: each must belong to the topic; the core's heartbeat handler runs, the application's
callbacks are steps of their own. -/
def runCallbacks (subscribeOk : Nat → Bool) (p : Nat) (tr : Transfer) :
    List Nat → Node → Option Node
  | [], cy => some cy
  | s :: l, cy =>
    if (cy.subs s).topic ≠ p then none
    else if (cy.subs s).callback = .onHeartbeat then
      (onHeartbeat subscribeOk cy tr).bind (runCallbacks subscribeOk p tr l)
    else runCallbacks subscribeOk p tr l cy

/-- `cy_ingest_topic_transfer` of `tr` on the topic at `p`, `r` being the PRNG draw of
`mark_neighbor` and `fuel` the bound on the subscription list. -/
def ingestTopicTransfer (env : Env) (subscribeOk : Nat → Bool) (cy : Node) (p : Nat)
    (tr : Transfer) (r : BitVec 64) (fuel : Nat) : Option Node :=
  let cy1 := (markNeighbor env.nodeIdMax cy tr.remoteNodeId r).modifyTopic p fun t ↦
    { t with age := t.age + 1 }
  match (cy1.topics p).subList with
  | none => some cy1
  | some _ =>
    let cy2 := cy1.modifyTopic p fun t ↦ { t with subLastTransfer := some tr }
    (walkSubs cy2.subs fuel (cy2.topics p).subList).bind fun l ↦
      runCallbacks subscribeOk p tr l cy2

/-! ## Collisions -/

/-- `cy_notify_discriminator_collision` for the topic at `p`, if any. -/
def notifyDiscriminatorCollision (cy : Node) : Option Nat → Node
  | none => cy
  | some p => if 0 < (cy.topics p).lastGossip then cy.scheduleGossipAsap p else cy

/-- `cy_notify_node_id_collision`. -/
def notifyNodeIdCollision (cy : Node) : Node := { cy with nodeIdCollision := true }

/-! ## The periodic update -/

/-- The platform hooks with a side effect on the node-ID or the network that a call made. -/
inductive Call
  | nodeIdSet
  | nodeIdClear
  | heartbeat (bytes : List (BitVec 8))
  deriving DecidableEq, Repr

/-- The node-ID part of `cy_update` before the heartbeat: the delayed collision is processed,
giving up a node-ID that the node holds. -/
def processCollision (env : Env) (cy : Node) (now : Int) : Node × List Call :=
  if cy.nodeIdCollision then
    if cy.nodeId ≤ env.nodeIdMax then
      ({ cy with nodeIdCollision := false, nodeId := nodeIdInvalid, heartbeatNext := now },
        [.nodeIdClear])
    else ({ cy with nodeIdCollision := false }, [])
  else (cy, [])

/-- `cy_update` at time `now`: `r₁ r₂ r₃` are the PRNG draws of `pick_node_id`, `setRes` the
result of `node_id_set` and `pubRes` that of the heartbeat's `topic_publish`. The node, the
result and the hooks called; `none` when an assertion fails. -/
def update (env : Env) (cy : Node) (now : Int) (r₁ r₂ r₃ : BitVec 64) (setRes pubRes : Int) :
    Option (Node × Int × List Call) :=
  (retireTimedOutFutures now cy.futuresByDeadline.length cy).bind fun cy1 ↦
    let (cy2, calls) := processCollision env cy1 now
    if now < cy2.heartbeatNext then some (cy2, 0, calls)
    else
      let picked : Option (Node × Int × List Call) :=
        if env.nodeIdMax ≤ cy2.nodeId then
          (pickNodeId cy2.bloom env.nodeIdMax r₁ r₂ r₃).map fun (n, b) ↦
            ({ cy2 with nodeId := n, bloom := b }, setRes, calls ++ [.nodeIdSet])
        else some (cy2, 0, calls)
      picked.bind fun (cy3, res, calls) ↦
        if env.nodeIdMax < cy3.nodeId then none
        else if res < 0 then some (cy3, res, calls)
        else
          match Index.min cy3.topicsByGossipTime with
          | none => none
          | some p =>
            (publishHeartbeat cy3 p now).bind fun (cy4, bytes) ↦
              if cy4.topicCount = 0 then none
              else some ({ cy4 with
                heartbeatNext := cy4.heartbeatNext +
                  min (cy4.heartbeatFullGossipCyclePeriodMax.tdiv cy4.topicCount)
                    cy4.heartbeatPeriodMax }, pubRes, calls ++ [.heartbeat bytes])

/-- **What an update can do.** Once the timed-out futures are retired and a pending collision is
processed, the heartbeat is not yet due; or the node picks a node-ID if it holds none and calls
`node_id_set`, whose error it returns, or else publishes the heartbeat of the topic first in the
gossip index and schedules the next one. -/
theorem update_cases {env : Env} {cy cy' : Node} {now : Int} {r₁ r₂ r₃ : BitVec 64}
    {setRes pubRes res : Int} {calls : List Call}
    (hu : update env cy now r₁ r₂ r₃ setRes pubRes = some (cy', res, calls)) :
    ∃ cy1 cy2 calls2, retireTimedOutFutures now cy.futuresByDeadline.length cy = some cy1 ∧
      processCollision env cy1 now = (cy2, calls2) ∧
      ((now < cy2.heartbeatNext ∧ cy' = cy2 ∧ res = 0 ∧ calls = calls2) ∨
        (cy2.heartbeatNext ≤ now ∧ ∃ cy3 res3 calls3,
          ((env.nodeIdMax ≤ cy2.nodeId ∧ ∃ n b,
              pickNodeId cy2.bloom env.nodeIdMax r₁ r₂ r₃ = some (n, b) ∧
              cy3 = { cy2 with nodeId := n, bloom := b } ∧ res3 = setRes ∧
              calls3 = calls2 ++ [.nodeIdSet]) ∨
            (cy2.nodeId < env.nodeIdMax ∧ cy3 = cy2 ∧ res3 = 0 ∧ calls3 = calls2)) ∧
          cy3.nodeId ≤ env.nodeIdMax ∧
          ((res3 < 0 ∧ cy' = cy3 ∧ res = res3 ∧ calls = calls3) ∨
            (0 ≤ res3 ∧ ∃ p cy4 bytes, Index.min cy3.topicsByGossipTime = some p ∧
              publishHeartbeat cy3 p now = some (cy4, bytes) ∧ cy4.topicCount ≠ 0 ∧
              cy' = { cy4 with
                heartbeatNext := cy4.heartbeatNext +
                  min (cy4.heartbeatFullGossipCyclePeriodMax.tdiv cy4.topicCount)
                    cy4.heartbeatPeriodMax } ∧
              res = pubRes ∧ calls = calls3 ++ [.heartbeat bytes])))) := by
  simp only [update] at hu
  obtain ⟨cy1, h1, hu⟩ := Option.bind_eq_some.1 hu
  rcases hpc : processCollision env cy1 now with ⟨cy2, calls2⟩
  refine ⟨cy1, cy2, calls2, h1, hpc, ?_⟩
  rw [hpc] at hu
  dsimp only at hu
  -- `by_cases` and `rw [if_pos _]` rather than `split`, whose simp on the whole body is slow
  by_cases hn : now < cy2.heartbeatNext
  · rw [if_pos hn] at hu; cases hu; exact .inl ⟨hn, rfl, rfl, rfl⟩
  rw [if_neg hn] at hu
  obtain ⟨⟨cy3, res3, calls3⟩, h3, hu⟩ := Option.bind_eq_some.1 hu
  have hpick : (env.nodeIdMax ≤ cy2.nodeId ∧ ∃ n b,
      pickNodeId cy2.bloom env.nodeIdMax r₁ r₂ r₃ = some (n, b) ∧
      cy3 = { cy2 with nodeId := n, bloom := b } ∧ res3 = setRes ∧
      calls3 = calls2 ++ [.nodeIdSet]) ∨
      (cy2.nodeId < env.nodeIdMax ∧ cy3 = cy2 ∧ res3 = 0 ∧ calls3 = calls2) := by
    by_cases hm : env.nodeIdMax ≤ cy2.nodeId
    · rw [if_pos hm] at h3
      obtain ⟨⟨n, b⟩, hp, he⟩ := Option.map_eq_some'.1 h3
      cases he; exact .inl ⟨hm, n, b, hp, rfl, rfl, rfl⟩
    · rw [if_neg hm] at h3; cases h3; exact .inr ⟨not_le.1 hm, rfl, rfl, rfl⟩
  refine .inr ⟨not_lt.1 hn, cy3, res3, calls3, hpick, ?_⟩
  by_cases hm : env.nodeIdMax < cy3.nodeId
  · rw [if_pos hm] at hu; cases hu
  rw [if_neg hm] at hu
  refine ⟨not_lt.1 hm, ?_⟩
  by_cases hr : res3 < 0
  · rw [if_pos hr] at hu; cases hu; exact .inl ⟨hr, rfl, rfl, rfl⟩
  rw [if_neg hr] at hu
  refine .inr ⟨not_lt.1 hr, ?_⟩
  rcases hp : Index.min cy3.topicsByGossipTime with _ | p <;> rw [hp] at hu
  · cases hu
  obtain ⟨⟨cy4, bytes⟩, h4, hu⟩ := Option.bind_eq_some.1 hu
  by_cases hz : cy4.topicCount = 0
  · rw [if_pos hz] at hu; cases hu
  rw [if_neg hz] at hu
  cases hu; exact ⟨p, cy4, bytes, rfl, h4, hz, rfl, rfl, rfl⟩

/-! ## Creation -/

/-- `CY_START_DELAY_MIN_us` and `CY_START_DELAY_MAX_us`. -/
def startDelayMin : Nat := 1000000
def startDelayMax : Nat := 3000000

/-- The node `cy_new` sets up before it registers the heartbeat topic, with the platform's
filter `bloom` purged. -/
def Node.initial (env : Env) (uid : BitVec 64) (nodeId : Nat) (ns : List Char) (now : Int)
    (bloom : Bloom64) : Node where
  uid := uid
  nodeId := if nodeId ≤ env.nodeIdMax then nodeId else nodeIdInvalid
  namespace_ := namespaceOf ns
  name := uidName uid
  startedAt := now
  lastEventTs := 0
  lastLocalEventTs := 0
  nodeIdCollision := false
  heartbeatTopic := none
  heartbeatNext := now
  heartbeatPeriodMax := 100 * 1000
  heartbeatFullGossipCyclePeriodMax := 10 * mega
  topics := fun _ ↦ .zero
  topicsByHash := []
  topicsBySubjectId := []
  topicsByGossipTime := []
  futures := fun _ ↦ .zero
  futuresByDeadline := []
  subs := fun _ ↦ .zero
  topicCount := 0
  bloom := bloom.purge

/-- The node-ID part of `cy_new`: a node without a node-ID waits a random start delay and stamps
its events now; a node given one marks it in the filter and calls `node_id_set`, whose result
is `setRes`. The node, the result and the hooks called. -/
def claimNodeId (env : Env) (cy : Node) (now : Int) (r : BitVec 64) (setRes : Int) :
    Node × Int × List Call :=
  if env.nodeIdMax < cy.nodeId then
    ({ cy with
      heartbeatNext := cy.heartbeatNext + randomUint r startDelayMin startDelayMax
      lastEventTs := now, lastLocalEventTs := now }, 0, [])
  else ({ cy with bloom := cy.bloom.set cy.nodeId }, setRes, [.nodeIdSet])

/-- What `claim_node_id` leaves: a node whose node-ID is out of range gets its start delay and
event times; any other node gets its node-ID set in the filter and calls `node_id_set`. -/
theorem claimNodeId_cases {env : Env} {cy cy' : Node} {now : Int} {r : BitVec 64}
    {setRes res : Int} {calls : List Call}
    (h : claimNodeId env cy now r setRes = (cy', res, calls)) :
    (env.nodeIdMax < cy.nodeId ∧ cy' = { cy with
      heartbeatNext := cy.heartbeatNext + randomUint r startDelayMin startDelayMax
      lastEventTs := now, lastLocalEventTs := now } ∧ res = 0 ∧ calls = []) ∨
    (cy.nodeId ≤ env.nodeIdMax ∧ cy' = { cy with bloom := cy.bloom.set cy.nodeId } ∧
      res = setRes ∧ calls = [.nodeIdSet]) := by
  unfold claimNodeId at h; split at h
  · cases h; exact .inl ⟨‹_›, rfl, rfl, rfl⟩
  · cases h; exact .inr ⟨not_lt.1 ‹_›, rfl, rfl, rfl⟩

/-- `cy_new`. The inputs past the namespace are the clock, the platform's filter, the PRNG
draws of the start delay and of the heartbeat topic's transfer-ID, the result of
`node_id_set`, the objects of the heartbeat topic and subscription, and the platform's answers
to `topic_subscribe`. The node, the result and the hooks called; `none` when an assertion
fails. -/
def cyNew (env : Env) (uid : BitVec 64) (nodeId : Nat) (ns : List Char) (now : Int)
    (bloom : Bloom64) (r₁ r₂ : BitVec 64) (setRes : Int) (p s : Nat) (subscribeOk : Nat → Bool)
    (subRes : Int) : Option (Node × Int × List Call) :=
  if uid = 0 ∨ env.nodeIdMax = 0 ∨ nodeIdInvalid ≤ env.nodeIdMax ∨ bloom.nBits = 0 ∨
      bloom.nBits % 64 ≠ 0 then none
  else
    let (cy1, res, calls) :=
      claimNodeId env (Node.initial env uid nodeId ns now bloom) now r₁ setRes
    if res < 0 then some (cy1, res, calls)
    else
      (topicNewHint env subscribeOk cy1 p env.heartbeatTopicName subjectIdInvalid now r₂).bind
        fun (cy2, created) ↦
          if created then
            (subscribeWithTransferIdTimeout { cy2 with heartbeatTopic := some p } p s heartbeatSize
              transferIdTimeoutDefault .onHeartbeat 0 subRes).map
              fun (cy3, res') ↦ (cy3, res', calls)
          else some (cy2, -654, calls)

/-- **What `cy_new` can do.** With a valid filter it claims the node-ID; unless `node_id_set`
failed, it creates the heartbeat topic and, when the topic is created, subscribes to it. -/
theorem cyNew_cases {env : Env} {uid : BitVec 64} {nodeId : Nat} {ns : List Char} {now : Int}
    {bloom : Bloom64} {r₁ r₂ : BitVec 64} {setRes : Int} {p s : Nat} {subscribeOk : Nat → Bool}
    {subRes res : Int} {calls : List Call} {cy : Node}
    (h : cyNew env uid nodeId ns now bloom r₁ r₂ setRes p s subscribeOk subRes =
      some (cy, res, calls)) :
    0 < bloom.nBits ∧ bloom.nBits % 64 = 0 ∧ ∃ cy1 res1,
      claimNodeId env (Node.initial env uid nodeId ns now bloom) now r₁ setRes =
        (cy1, res1, calls) ∧
      ((res1 < 0 ∧ cy = cy1) ∨ ∃ cy2 created,
        topicNewHint env subscribeOk cy1 p env.heartbeatTopicName subjectIdInvalid now r₂ =
          some (cy2, created) ∧
        ((created = true ∧ ∃ res',
            subscribeWithTransferIdTimeout { cy2 with heartbeatTopic := some p } p s heartbeatSize
              transferIdTimeoutDefault .onHeartbeat 0 subRes = some (cy, res')) ∨
          (created = false ∧ cy = cy2))) := by
  simp only [cyNew] at h
  by_cases hbad : uid = 0 ∨ env.nodeIdMax = 0 ∨ nodeIdInvalid ≤ env.nodeIdMax ∨
    bloom.nBits = 0 ∨ bloom.nBits % 64 ≠ 0
  · rw [if_pos hbad] at h; cases h
  rw [if_neg hbad] at h
  refine ⟨by omega, by omega, ?_⟩
  rcases hc : claimNodeId env (Node.initial env uid nodeId ns now bloom) now r₁ setRes with
    ⟨cy1, res1, calls1⟩
  rw [hc] at h
  dsimp only at h
  by_cases hr : res1 < 0
  · rw [if_pos hr] at h; cases h; exact ⟨_, _, rfl, .inl ⟨hr, rfl⟩⟩
  rw [if_neg hr] at h
  obtain ⟨⟨cy2, created⟩, h2, h⟩ := Option.bind_eq_some.1 h
  cases created
  · cases h; exact ⟨_, _, rfl, .inr ⟨_, false, h2, .inr ⟨rfl, rfl⟩⟩⟩
  · obtain ⟨⟨cy3, res3⟩, h3, he⟩ := Option.map_eq_some'.1 h
    cases he; exact ⟨_, _, rfl, .inr ⟨cy2, true, h2, .inl ⟨rfl, res3, h3⟩⟩⟩

/-! ## Runs -/

/-- One call of the API on a node. The objects the application passes are live: a topic is in
the hash index, a future passed to `cy_publish` is in no index, and an application callback is
not the core's heartbeat handler. -/
inductive Step (env : Env) : Node → List Call → Node → Prop
  | topicNewHint {cy cy' : Node} {subscribeOk : Nat → Bool} {p : Nat} {name : List Char}
      {hint : Nat} {now : Int} {r : BitVec 64} {created : Bool} :
      p ∉ cy.topicsByHash →
      topicNewHint env subscribeOk cy p name hint now r = some (cy', created) → Step env cy [] cy'
  | ingestTopicTransfer {cy cy' : Node} {subscribeOk : Nat → Bool} {p : Nat} {tr : Transfer}
      {r : BitVec 64} {fuel : Nat} :
      p ∈ cy.topicsByHash →
      ingestTopicTransfer env subscribeOk cy p tr r fuel = some cy' → Step env cy [] cy'
  | ingestTopicResponseTransfer {cy cy' : Node} {tr : Transfer} {r : BitVec 64} :
      ingestTopicResponseTransfer env cy tr r = some cy' → Step env cy [] cy'
  | update {cy cy' : Node} {now : Int} {r₁ r₂ r₃ : BitVec 64} {setRes pubRes res : Int}
      {calls : List Call} :
      update env cy now r₁ r₂ r₃ setRes pubRes = some (cy', res, calls) → Step env cy calls cy'
  | publish {cy : Node} {p : Nat} {future : Option Nat} {responseDeadline res : Int} :
      p ∈ cy.topicsByHash →
      (∀ f ∈ future, f ∉ cy.futuresByDeadline ∧
        ∀ q ∈ cy.topicsByHash, f ∉ (cy.topics q).futuresByTransferId) →
      Step env cy [] (publish env cy p future responseDeadline res).1
  | respond {cy : Node} : Step env cy [] cy
  | subscribe {cy cy' : Node} {p s extent fuel : Nat} {timeout res err : Int}
      {callback : Callback} :
      p ∈ cy.topicsByHash → callback ≠ .onHeartbeat →
      subscribeWithTransferIdTimeout cy p s extent timeout callback fuel res = some (cy', err) →
      Step env cy [] cy'
  | notifyDiscriminatorCollision {cy : Node} {p : Option Nat} :
      (∀ q ∈ p, q ∈ cy.topicsByHash) → Step env cy [] (notifyDiscriminatorCollision cy p)
  | notifyNodeIdCollision {cy : Node} : Step env cy [] (notifyNodeIdCollision cy)

/-- The nodes that `cy_new` and a sequence of API calls produce. -/
inductive Reachable (env : Env) : Node → Prop
  | init {uid : BitVec 64} {nodeId : Nat} {ns : List Char} {now : Int} {bloom : Bloom64}
      {r₁ r₂ : BitVec 64} {setRes : Int} {p s : Nat} {subscribeOk : Nat → Bool}
      {subRes res : Int} {calls : List Call} {cy : Node} :
      cyNew env uid nodeId ns now bloom r₁ r₂ setRes p s subscribeOk subRes =
        some (cy, res, calls) → Reachable env cy
  | step {cy cy' : Node} {calls : List Call} : Reachable env cy → Step env cy calls cy' →
      Reachable env cy'

/-- **Invariants of every reachable node**: a property that `cy_new` establishes and every call
keeps holds of every node a run produces. -/
theorem Reachable.induct_on {env : Env} {P : Node → Prop}
    (hinit : ∀ {uid nodeId ns now bloom r₁ r₂ setRes p s subscribeOk subRes cy res calls},
      cyNew env uid nodeId ns now bloom r₁ r₂ setRes p s subscribeOk subRes =
        some (cy, res, calls) → P cy)
    (hstep : ∀ {cy cy' calls}, Reachable env cy → P cy → Step env cy calls cy' → P cy')
    {cy : Node} (h : Reachable env cy) : P cy := by
  induction h with
  | init h => exact hinit h
  | step hr hs ih => exact hstep hr ih hs

/-! ## A Cyphal/CAN platform

The limits `cy.h` gives for Cyphal/CAN: node-IDs up to `127`, the 5-bit transfer-ID (mask `31`),
and a filter of two 64-bit words. Concrete runs are evaluated on it. -/

/-- A Cyphal/CAN platform with the default heartbeat topic `"/7509"`. The hash of a name that is
not pinned stands in for `rapidhash`: `2 ^ 63` plus the little-endian value of its bytes, which
is injective on names of up to seven characters. -/
def Env.can : Env :=
  ⟨127, 31, ['/', '7', '5', '0', '9'], fun s ↦ BitVec.ofNat 64 (2 ^ 63 + leValue (charBytes s))⟩

/-- A filter of `nBits` bits with none set. -/
def Bloom64.empty (nBits : Nat) : Bloom64 := ⟨nBits, 0, fun _ ↦ 0⟩

/-- The node `cy_new` creates at time `100` on Cyphal/CAN with node-ID `5`, a filter of two words,
and the heartbeat topic and its subscription at `0`. -/
def canNode : Node :=
  match cyNew Env.can 1 5 [] 100 (Bloom64.empty 128) 0 0 0 0 0 (fun _ ↦ true) 0 with
  | some r => r.1
  | none => Node.initial Env.can 1 5 [] 100 (Bloom64.empty 128)

theorem canNode_reachable : Reachable Env.can canNode := by
  unfold canNode; split
  · exact Reachable.init ‹_›
  · rename_i hr
    have h : (cyNew Env.can 1 5 [] 100 (Bloom64.empty 128) 0 0 0 0 0 (fun _ ↦ true) 0).isSome := by
      decide
    rw [hr] at h; cases h

end Cy
