import Cy.Basic
import Cy.Index

/-!
# The node state

The records of `cy.h` — transfers, topics, futures, subscriptions, the node-ID Bloom filter and
the node itself (`cy_t`, here `Node`) — as Lean structures, keeping the fields that some modelled
function reads or writes. The pointer graph of the source becomes explicit heaps: topics, futures
and subscriptions are addressed by natural numbers (`cy->topics_by_hash` holds topic pointers, a
future holds its topic's pointer), and each heap is a total function updated with
`Function.update`.

## What the core does not define

The platform hooks that return a value are oracles: the clock, the PRNG, the results of
`topic_subscribe`, `topic_publish` and `node_id_set`, and the allocator of new topics are inputs
of the operation that calls them. What stays fixed for the life of a node is collected in `Env`:
the two platform constants, the name of the heartbeat topic (`CY_CONFIG_HEARTBEAT_TOPIC_NAME`)
and the external `rapidhash`, whose code is not among the sources.
-/

namespace Cy

/-! ## Records -/

/-- `cy_transfer_owned_t`: the payload is the chain of fragment views, head first. -/
structure Transfer where
  timestamp : Int
  remoteNodeId : Nat
  transferId : BitVec 64
  payload : List (List (BitVec 8))

/-- `cy_topic_t`, without the three index handles (the indices are lists of pointers in `Cy`). -/
structure Topic where
  /-- The canonical name; `name_length` is its length. -/
  name : List Char
  hash : BitVec 64
  evictions : BitVec 64
  age : BitVec 64
  agedAt : Int
  lastGossip : Int
  lastEventTs : Int
  lastLocalEventTs : Int
  /-- The in-order list of `futures_by_transfer_id`. -/
  futuresByTransferId : List Nat
  pubTransferId : BitVec 64
  publishing : Bool
  subLastTransfer : Option Transfer
  /-- The head of `sub_list`; the list continues through `Subscription.next`. -/
  subList : Option Nat
  subTransferIdTimeout : Int
  subExtent : Nat
  subscribed : Bool

/-- `cy_future_state_t`. -/
inductive FutureState
  | pending
  | success
  | failure
  deriving DecidableEq, Repr

/-- `cy_future_t`, without the index handles and the user's callback. -/
structure Future where
  topic : Nat
  state : FutureState
  transferIdMasked : BitVec 64
  deadline : Int
  lastResponse : Option Transfer

/-- The callback a subscription runs: the heartbeat handler of the core, or the application's. -/
inductive Callback
  | none
  | onHeartbeat
  | user
  deriving DecidableEq, Repr

/-- `cy_subscription_t`. -/
structure Subscription where
  next : Option Nat
  topic : Nat
  callback : Callback

/-- `cy_bloom64_t`: `storage` holds the `n_bits / 64` words of the filter. -/
structure Bloom64 where
  nBits : Nat
  popcount : Nat
  storage : Nat → BitVec 64

/-- `cy_t`: the state of one node. -/
structure Node where
  uid : BitVec 64
  nodeId : Nat
  namespace_ : List Char
  name : List Char
  startedAt : Int
  lastEventTs : Int
  lastLocalEventTs : Int
  nodeIdCollision : Bool
  heartbeatTopic : Option Nat
  heartbeatNext : Int
  heartbeatPeriodMax : Int
  heartbeatFullGossipCyclePeriodMax : Int
  /-- The topic objects, by pointer. -/
  topics : Nat → Topic
  topicsByHash : List Nat
  topicsBySubjectId : List Nat
  topicsByGossipTime : List Nat
  /-- The future objects, by pointer. -/
  futures : Nat → Future
  futuresByDeadline : List Nat
  /-- The subscription objects, by pointer. -/
  subs : Nat → Subscription
  topicCount : Nat
  /-- The node-ID Bloom filter of the platform, which only the core modifies. -/
  bloom : Bloom64

/-- What a node reads but does not define. -/
structure Env where
  /-- `cy_platform_t::node_id_max`. -/
  nodeIdMax : Nat
  /-- `cy_platform_t::transfer_id_mask`. -/
  transferIdMask : BitVec 64
  /-- `CY_CONFIG_HEARTBEAT_TOPIC_NAME`, by default `"/7509"`. -/
  heartbeatTopicName : List Char
  /-- The external `rapidhash` of a name. -/
  rapidhash : List Char → BitVec 64

/-- `Chain subs head l`: walking the `next` pointers of `subs` from `head` visits `l` and reaches
`NULL`. An acyclic list has exactly one such `l`; a cyclic one has none, and a walk over it does
not return. -/
inductive Chain (subs : Nat → Subscription) : Option Nat → List Nat → Prop
  | nil : Chain subs none []
  | cons {s : Nat} {l : List Nat} : Chain subs (subs s).next l → Chain subs (some s) (s :: l)

/-- Walk the `next` pointers from `head` through at most `n` subscriptions: the list visited, or
`none` if the walk has not reached `NULL` by then. -/
def walkSubs (subs : Nat → Subscription) : Nat → Option Nat → Option (List Nat)
  | _, none => some []
  | 0, some _ => none
  | n + 1, some s => (walkSubs subs n (subs s).next).map (s :: ·)

theorem chain_of_walkSubs {subs : Nat → Subscription} :
    ∀ {n : Nat} {head : Option Nat} {l : List Nat},
      walkSubs subs n head = some l → Chain subs head l
  | n, none, l, h => by
    rw [show walkSubs subs n none = some [] by cases n <;> rfl] at h
    cases h; exact .nil
  | 0, some _, _, h => by cases h
  | n + 1, some s, l, h => by
    simp only [walkSubs, Option.map_eq_some'] at h
    obtain ⟨l', h', rfl⟩ := h
    exact .cons (chain_of_walkSubs h')

namespace Chain

variable {subs subs' : Nat → Subscription}

/-- A list has at most one chain from a head: the walk is determined by the `next` pointers. -/
theorem unique {head : Option Nat} {l l' : List Nat} (h : Chain subs head l)
    (h' : Chain subs head l') : l = l' := by
  induction h generalizing l' with
  | nil => cases h'; rfl
  | cons _ ih => cases h' with
    | cons h' => rw [ih h']

/-- A walk with enough steps reads the chain. -/
theorem walkSubs_eq {head : Option Nat} {l : List Nat} (h : Chain subs head l) :
    ∀ {n : Nat}, l.length ≤ n → walkSubs subs n head = some l := by
  induction h with
  | nil => intro n _; cases n <;> rfl
  | cons _ ih =>
    intro n hn
    cases n with
    | zero => cases hn
    | succ n => rw [walkSubs, ih (Nat.le_of_succ_le_succ hn)]; rfl

/-- A chain reads only the `next` pointers of its own entries. -/
theorem congr {head : Option Nat} {l : List Nat} (h : Chain subs head l)
    (he : ∀ x ∈ l, subs' x = subs x) : Chain subs' head l := by
  induction h with
  | nil => exact .nil
  | @cons x l _ ih =>
    have hx := he x (List.mem_cons_self _ _)
    exact .cons (hx ▸ ih fun y hy ↦ he y (List.mem_cons_of_mem _ hy))

/-- Clearing the `next` pointer of an entry `s` cuts the chain after `s`. -/
theorem cut {s : Nat} : ∀ {head : Option Nat} {l₁ l₂ : List Nat},
    Chain subs head (l₁ ++ s :: l₂) → (subs' s).next = none → (∀ x ∈ l₁, subs' x = subs x) →
      Chain subs' head (l₁ ++ [s])
  | _, [], _, .cons _, hs, _ => .cons (hs ▸ .nil)
  | _, x :: l₁, _, .cons h, hs, he => by
    have hx := he x (List.mem_cons_self _ _)
    exact .cons (hx ▸ cut h hs fun y hy ↦ he y (List.mem_cons_of_mem _ hy))

/-- Pointing the last entry at `s`, whose `next` is `NULL`, appends `s` to the chain. -/
theorem append {s last : Nat} : ∀ {head : Option Nat} {l : List Nat},
    Chain subs head (l ++ [last]) → (∀ x ∈ l, subs' x = subs x) → (subs' last).next = some s →
      (subs' s).next = none → Chain subs' head (l ++ [last, s])
  | _, [], .cons _, _, hl, hs => .cons (hl ▸ .cons (hs ▸ .nil))
  | _, x :: l, .cons h, he, hl, hs => by
    have hx := he x (List.mem_cons_self _ _)
    exact .cons (hx ▸ append h (fun y hy ↦ he y (List.mem_cons_of_mem _ hy)) hl hs)

end Chain

/-! ## Zeroed objects -/

/-- A topic object as `memset` leaves it. -/
def Topic.zero : Topic where
  name := []
  hash := 0
  evictions := 0
  age := 0
  agedAt := 0
  lastGossip := 0
  lastEventTs := 0
  lastLocalEventTs := 0
  futuresByTransferId := []
  pubTransferId := 0
  publishing := false
  subLastTransfer := none
  subList := none
  subTransferIdTimeout := 0
  subExtent := 0
  subscribed := false

/-- A future object as `memset` leaves it. -/
def Future.zero : Future := ⟨0, .pending, 0, 0, none⟩

/-- A subscription object as `memset` leaves it. -/
def Subscription.zero : Subscription := ⟨none, 0, .none⟩

/-! ## The topic heap -/

namespace Node

variable (cy : Node)

/-- `cy_topic_get_subject_id` of the topic at `p`. -/
def subjectIdOf (p : Nat) : Nat := topicGetSubjectId (cy.topics p).hash (cy.topics p).evictions

/-- The key of the gossip index: `last_gossip` of the topic at `p`. -/
def lastGossipOf (p : Nat) : Int := (cy.topics p).lastGossip

/-- The key of the hash index. -/
def hashOf (p : Nat) : Nat := (cy.topics p).hash.toNat

/-- The arbitration rank of the topic at `p`. -/
def rankOf (p : Nat) : Nat := rank (cy.topics p).age (cy.topics p).hash

/-- Replace the topic at `p` by `f` of it. -/
def modifyTopic (p : Nat) (f : Topic → Topic) : Node :=
  { cy with topics := Function.update cy.topics p (f (cy.topics p)) }

variable {cy}

@[simp] theorem modifyTopic_topics_self (p : Nat) (f : Topic → Topic) :
    (cy.modifyTopic p f).topics p = f (cy.topics p) := by
  simp [modifyTopic]

@[simp] theorem modifyTopic_topics_of_ne {p q : Nat} (h : q ≠ p) (f : Topic → Topic) :
    (cy.modifyTopic p f).topics q = cy.topics q := by
  simp [modifyTopic, h]

section
variable {p : Nat} {f : Topic → Topic}
@[simp] theorem modifyTopic_uid : (cy.modifyTopic p f).uid = cy.uid := rfl
@[simp] theorem modifyTopic_nodeId : (cy.modifyTopic p f).nodeId = cy.nodeId := rfl
@[simp] theorem modifyTopic_startedAt : (cy.modifyTopic p f).startedAt = cy.startedAt := rfl
@[simp] theorem modifyTopic_lastEventTs : (cy.modifyTopic p f).lastEventTs = cy.lastEventTs := rfl
@[simp] theorem modifyTopic_lastLocalEventTs :
    (cy.modifyTopic p f).lastLocalEventTs = cy.lastLocalEventTs := rfl
@[simp] theorem modifyTopic_nodeIdCollision :
    (cy.modifyTopic p f).nodeIdCollision = cy.nodeIdCollision := rfl
@[simp] theorem modifyTopic_heartbeatTopic :
    (cy.modifyTopic p f).heartbeatTopic = cy.heartbeatTopic := rfl
@[simp] theorem modifyTopic_topicsByHash : (cy.modifyTopic p f).topicsByHash = cy.topicsByHash :=
  rfl
@[simp] theorem modifyTopic_topicsBySubjectId :
    (cy.modifyTopic p f).topicsBySubjectId = cy.topicsBySubjectId := rfl
@[simp] theorem modifyTopic_topicsByGossipTime :
    (cy.modifyTopic p f).topicsByGossipTime = cy.topicsByGossipTime := rfl
@[simp] theorem modifyTopic_futures : (cy.modifyTopic p f).futures = cy.futures := rfl
@[simp] theorem modifyTopic_futuresByDeadline :
    (cy.modifyTopic p f).futuresByDeadline = cy.futuresByDeadline := rfl
@[simp] theorem modifyTopic_subs : (cy.modifyTopic p f).subs = cy.subs := rfl
@[simp] theorem modifyTopic_topicCount : (cy.modifyTopic p f).topicCount = cy.topicCount := rfl
@[simp] theorem modifyTopic_bloom : (cy.modifyTopic p f).bloom = cy.bloom := rfl
end

theorem modifyTopic_topics (p q : Nat) (f : Topic → Topic) :
    (cy.modifyTopic p f).topics q = if q = p then f (cy.topics p) else cy.topics q := by
  split <;> simp_all

variable (cy)

/-- `cy_topic_find_by_hash`. -/
def findByHash (hash : BitVec 64) : Option Nat :=
  Index.find (Index.keyCmp cy.hashOf hash.toNat) cy.topicsByHash

/-- `cy_topic_find_by_subject_id`. -/
def findBySubjectId (sid : Nat) : Option Nat :=
  Index.find (Index.keyCmp cy.subjectIdOf sid) cy.topicsBySubjectId

/-- `cy->last_event_ts = topic->last_event_ts = ts`. -/
def stampEvent (p : Nat) (ts : Int) : Node :=
  { cy with lastEventTs := ts }.modifyTopic p fun t ↦ { t with lastEventTs := ts }

/-- `cy->last_local_event_ts = topic->last_local_event_ts = ts`. -/
def stampLocalEvent (p : Nat) (ts : Int) : Node :=
  { cy with lastLocalEventTs := ts }.modifyTopic p fun t ↦ { t with lastLocalEventTs := ts }

section
variable {cy} {p : Nat} {ts : Int}
@[simp] theorem stampEvent_bloom : (cy.stampEvent p ts).bloom = cy.bloom := rfl
@[simp] theorem stampLocalEvent_bloom : (cy.stampLocalEvent p ts).bloom = cy.bloom := rfl
end

end Node

/-! ## The topic tables -/

/-- **The topic tables are consistent.** The hash index is a search tree over pairwise-distinct
hashes; the subject-ID index holds the same topics, each under its current subject-ID, with
pairwise-distinct subject-IDs; the gossip index holds the same topics in non-decreasing
`last_gossip` order; and `topic_count` counts them and stays within the dynamic pool. -/
structure TopicTables (cy : Node) : Prop where
  hash_sorted : Index.Sorted (· < ·) cy.hashOf cy.topicsByHash
  subject_perm : cy.topicsBySubjectId.Perm cy.topicsByHash
  subject_sorted : Index.Sorted (· < ·) cy.subjectIdOf cy.topicsBySubjectId
  gossip_perm : cy.topicsByGossipTime.Perm cy.topicsByHash
  gossip_sorted : Index.Sorted (· ≤ ·) cy.lastGossipOf cy.topicsByGossipTime
  count_eq : cy.topicCount = cy.topicsByHash.length
  count_le : cy.topicCount ≤ topicSubjectCount

instance : DecidablePred TopicTables := fun cy ↦
  decidable_of_iff (Index.Sorted (· < ·) cy.hashOf cy.topicsByHash ∧
      cy.topicsBySubjectId.Perm cy.topicsByHash ∧
      Index.Sorted (· < ·) cy.subjectIdOf cy.topicsBySubjectId ∧
      cy.topicsByGossipTime.Perm cy.topicsByHash ∧
      Index.Sorted (· ≤ ·) cy.lastGossipOf cy.topicsByGossipTime ∧
      cy.topicCount = cy.topicsByHash.length ∧ cy.topicCount ≤ topicSubjectCount)
    ⟨fun ⟨a, b, c, d, e, f, g⟩ ↦ ⟨a, b, c, d, e, f, g⟩,
      fun ⟨a, b, c, d, e, f, g⟩ ↦ ⟨a, b, c, d, e, f, g⟩⟩

end Cy
