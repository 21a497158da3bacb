import Cy.Api

/-!
# The heartbeat on the wire

`publish_heartbeat` sends the first `40 + name_length` bytes of the memory image of
`struct heartbeat_t`; `on_heartbeat` gathers them into a zeroed structure and reads the fields
back. The age shares its 64-bit word with the topic flags (top byte), the eviction counter with
the name length (top byte) and a reserved 16-bit field.

## The round trip

`Heartbeat.ofBytes_bytes` reads a whole image back as the message. The cut at
`40 + name_length` bytes loses nothing, because the rest of the image is the zeroed tail of the
name, which the receiver's zeroed buffer restores (`receiveHeartbeat_makeHeartbeat`). The packed
words give back their parts when the parts fit their fields: `heartbeat_roundTrip` says that
every heartbeat of a topic whose age is below `2 ^ 56` and eviction counter below `2 ^ 40` is
decoded exactly.

## Overflow

Neither field saturates. An age adopted from a remote at `2 ^ 56 - 1` and incremented once by
the next transfer reaches `2 ^ 56`, whose top bit lands in the flag byte, and the receiver reads
age `0`: `heartbeat_age_truncated`.

`age_topic` casts the whole seconds since `aged_at` to `int32_t`. A gap of `2 ^ 31` seconds
would cast to `-2 ^ 31` and fail `assert(sec >= 0)`; under the calling contract of `cy_update`
the gaps between the heartbeats of a topic stay far below that, and aging keeps the bounds
`Cy.Heartbeat` proves (`ageRun_contract`).
-/

namespace Cy

/-! ## Bytes -/

theorem leValue_leBytes : ∀ (n x : Nat), leValue (leBytes n x) = x % 256 ^ n
  | 0, x => by simp [leBytes, leValue, Nat.mod_one]
  | n + 1, x => by
    simp only [leBytes, leValue, leValue_leBytes n, BitVec.toNat_ofNat, Nat.reducePow]
    rw [pow_succ', Nat.mod_mul]

@[simp] theorem length_leBytes : ∀ (n x : Nat), (leBytes n x).length = n
  | 0, _ => rfl
  | n + 1, x => by rw [leBytes, List.length_cons, length_leBytes n]

/-- A `w`-bit value written to `n ≥ w / 8` bytes reads back as itself. -/
@[simp] theorem ofNat_leValue_leBytes {w : Nat} (x : BitVec w) (n : Nat) (hn : w ≤ 8 * n) :
    BitVec.ofNat w (leValue (leBytes n x.toNat)) = x := by
  rw [leValue_leBytes, Nat.mod_eq_of_lt (lt_of_lt_of_le x.isLt ?_), BitVec.ofNat_toNat,
    BitVec.setWidth_eq]
  calc 2 ^ w ≤ 2 ^ (8 * n) := Nat.pow_le_pow_right two_pos hn
    _ = 256 ^ n := by rw [pow_mul]; rfl

/-- **The memory image of a message reads back as the message.** -/
theorem Heartbeat.ofBytes_bytes (h : Heartbeat) (hu : h.userWord.length = 3)
    (hn : h.topicName.length = topicNameMax) : Heartbeat.ofBytes h.bytes = h := by
  simp only [Heartbeat.ofBytes, Heartbeat.bytes, List.append_assoc, List.singleton_append,
    List.cons_append, length_leBytes, List.take_left', Nat.reduceMul, le_refl,
    ofNat_leValue_leBytes, List.drop_left', hu, BitVec.ofNat_eq_ofNat, List.getD_eq_getElem?_getD,
    Nat.reduceLeDiff, List.getElem?_append_right, Nat.reduceSub, List.length_append,
    List.length_cons, hn, lt_add_iff_pos_right, add_pos_iff, Nat.ofNat_pos, true_or, or_self,
    zero_lt_one, List.getElem?_eq_getElem, List.getElem_append_right, tsub_self,
    List.getElem_cons_zero, Option.getD_some, List.drop_append_eq_append_drop,
    List.drop_eq_nil_of_le, List.drop_succ_cons, List.drop_zero, zero_le, Nat.sub_eq_zero_of_le,
    List.nil_append, List.take_of_length_le]

/-- The fixed part of the image: the `40` bytes before the name. -/
theorem Heartbeat.bytes_eq (h : Heartbeat) :
    h.bytes = (leBytes 4 h.uptime.toNat ++ h.userWord ++ [h.version] ++ leBytes 8 h.uid.toNat ++
      leBytes 8 h.topicHash.toNat ++ leBytes 8 h.topicFlags8Age56.toNat ++
      leBytes 8 h.topicNameLength8Reserved16Evictions40.toNat) ++ h.topicName := rfl

/-! ## Packed words -/

theorem getLsbD_of_toNat_lt {a : BitVec 64} {k i : Nat} (ha : a.toNat < 2 ^ k) (hi : k ≤ i) :
    a.getLsbD i = false :=
  Nat.testBit_lt_two_pow (lt_of_lt_of_le ha (Nat.pow_le_pow_right two_pos hi))

/-- The low `k` bits of a word `x <<< s ||| a` are `a` when `a` fits in `k ≤ s` bits. -/
theorem or_shiftLeft_and_mask {x a : BitVec 64} {k s : Nat} (hks : k ≤ s) (ha : a.toNat < 2 ^ k) :
    ((x <<< s) ||| a) &&& BitVec.ofNat 64 (2 ^ k - 1) = a := by
  apply BitVec.eq_of_getLsbD_eq
  intro ⟨i, hi⟩
  simp only [BitVec.getLsbD_and, BitVec.getLsbD_or, BitVec.getLsbD_shiftLeft, BitVec.getLsbD_ofNat,
    Nat.testBit_two_pow_sub_one]
  by_cases hik : i < k
  · simp [hik, hi, show i < s by omega]
  · simp [hik, getLsbD_of_toNat_lt ha (not_lt.1 hik)]

/-- The high field of a word `x <<< k ||| a` is `x` when `a` fits in `k` bits and `x` in the
other `64 - k`. -/
theorem or_shiftLeft_ushiftRight {x a : BitVec 64} {k : Nat} (ha : a.toNat < 2 ^ k)
    (hx : x.toNat < 2 ^ (64 - k)) : ((x <<< k) ||| a) >>> k = x := by
  ext i
  simp only [BitVec.getLsbD_ushiftRight, BitVec.getLsbD_or, BitVec.getLsbD_shiftLeft,
    getLsbD_of_toNat_lt ha (Nat.le_add_right k i), Bool.or_false, Nat.add_sub_cancel_left]
  by_cases hi : k + i < 64
  · simp [hi]
  · simp [hi, getLsbD_of_toNat_lt (i := i) hx (by omega)]

theorem toNat_ofNat_of_lt {x : Nat} (hx : x < 2 ^ 8) : (BitVec.ofNat 64 x).toNat = x := by
  rw [BitVec.toNat_ofNat, Nat.mod_eq_of_lt (lt_trans hx (by decide))]

/-- A gather into room for the whole of a single fragment copies the fragment. -/
theorem bufferBorrowedGather_singleton {l : List (BitVec 8)} {n : Nat} (h : l.length ≤ n) :
    bufferBorrowedGather [l] n = l := by
  unfold bufferBorrowedGather
  split
  · subst n; exact (List.eq_nil_of_length_eq_zero (Nat.le_zero.1 h)).symm
  · rw [List.take_of_length_le h, bufferBorrowedGather, List.append_nil]

/-! ## The message of `make_heartbeat` -/

section Make

variable {uptime : Int} {uid : BitVec 64} {flags : Nat} {evictions age hash : BitVec 64}
  {nameLen : Nat} {name : List (BitVec 8)}

theorem length_bytes_makeHeartbeat (hL : nameLen ≤ topicNameMax) (hn : nameLen ≤ name.length) :
    (makeHeartbeat uptime uid flags evictions age hash nameLen name).bytes.length =
      heartbeatSize := by
  simp only [Heartbeat.bytes, makeHeartbeat, List.length_append, length_leBytes, List.length_cons,
    List.length_nil, List.length_take, List.length_replicate, min_eq_left hn, heartbeatSize]
  simp only [topicNameMax] at hL ⊢
  omega

/-- Cutting the image after the name and padding it with zeros gives the image back: its tail is
the zeroed rest of the name. -/
theorem take_bytes_makeHeartbeat (hn : nameLen ≤ name.length) :
    (makeHeartbeat uptime uid flags evictions age hash nameLen name).bytes.take (40 + nameLen) ++
        List.replicate (topicNameMax - nameLen) 0 =
      (makeHeartbeat uptime uid flags evictions age hash nameLen name).bytes := by
  rw [Heartbeat.bytes_eq]
  simp only [makeHeartbeat]
  rw [← List.append_assoc, List.take_left' (by simp [List.length_take, min_eq_left hn]; omega),
    List.append_assoc]

/-- **The first `40 + name_length` bytes of the image, gathered into a zeroed buffer, are
accepted and read back as the message.** -/
theorem receiveHeartbeat_makeHeartbeat (hL : nameLen ≤ topicNameMax) (hn : nameLen ≤ name.length) :
    receiveHeartbeat
      [(makeHeartbeat uptime uid flags evictions age hash nameLen name).bytes.take
        (heartbeatSize - (topicNameMax - nameLen))] =
      some (makeHeartbeat uptime uid flags evictions age hash nameLen name) := by
  have hm : heartbeatSize - (topicNameMax - nameLen) = 40 + nameLen := by
    simp only [heartbeatSize, topicNameMax] at hL ⊢; omega
  have hlen := @length_bytes_makeHeartbeat uptime uid flags evictions age hash nameLen name hL hn
  have htake := @take_bytes_makeHeartbeat uptime uid flags evictions age hash nameLen name hn
  have hwhole := Heartbeat.ofBytes_bytes (makeHeartbeat uptime uid flags evictions age hash nameLen
    name) rfl (by simp [makeHeartbeat, List.length_take, min_eq_left hn]; omega)
  set msg := makeHeartbeat uptime uid flags evictions age hash nameLen name
  have hgot : bufferBorrowedGather [msg.bytes.take (40 + nameLen)] heartbeatSize =
      msg.bytes.take (40 + nameLen) :=
    bufferBorrowedGather_singleton (by simp [List.length_take, hlen])
  have hglen : (msg.bytes.take (40 + nameLen)).length = 40 + nameLen := by
    rw [List.length_take, hlen]; simp only [heartbeatSize, topicNameMax] at hL ⊢; omega
  simp only [receiveHeartbeat, hm, hgot, hglen]
  rw [show heartbeatSize - (40 + nameLen) = topicNameMax - nameLen by
      simp only [heartbeatSize, topicNameMax] at hL ⊢; omega, htake, hwhole,
    if_neg (by simp [heartbeatSize, topicNameMax, msg, makeHeartbeat])]

theorem evictions_makeHeartbeat (he : evictions.toNat < 2 ^ 40) :
    (makeHeartbeat uptime uid flags evictions age hash nameLen name).evictions = evictions :=
  or_shiftLeft_and_mask (by decide) he

theorem age_makeHeartbeat (ha : age.toNat < 2 ^ 56) :
    (makeHeartbeat uptime uid flags evictions age hash nameLen name).age = age :=
  or_shiftLeft_and_mask le_rfl ha

theorem flags_makeHeartbeat (hf : flags < 2 ^ 8) (ha : age.toNat < 2 ^ 56) :
    ((makeHeartbeat uptime uid flags evictions age hash nameLen name).topicFlags8Age56 >>>
      56).toNat = flags := by
  simp only [makeHeartbeat]
  rw [or_shiftLeft_ushiftRight ha (by rw [toNat_ofNat_of_lt hf]; exact hf), toNat_ofNat_of_lt hf]

theorem nameLength_makeHeartbeat (hn : nameLen < 2 ^ 8) (he : evictions.toNat < 2 ^ 56) :
    ((makeHeartbeat uptime uid flags evictions age hash nameLen
      name).topicNameLength8Reserved16Evictions40 >>> 56).toNat = nameLen := by
  simp only [makeHeartbeat]
  rw [or_shiftLeft_ushiftRight he (by rw [toNat_ofNat_of_lt hn]; exact hn), toNat_ofNat_of_lt hn]

theorem name_makeHeartbeat (hn : nameLen ≤ name.length) :
    (makeHeartbeat uptime uid flags evictions age hash nameLen name).topicName.take nameLen =
      name.take nameLen := by
  simp only [makeHeartbeat]
  rw [List.take_append_of_le_length (by rw [List.length_take, min_eq_left hn]), List.take_take,
    min_self]

end Make

theorem topicFlags_lt (t : Topic) : topicFlags t < 2 ^ 8 := by
  unfold topicFlags; split <;> split <;> decide

/-! ## A heartbeat of `publish_heartbeat` -/

/-- The decoding of what `publish_heartbeat` sends, field by field. -/
theorem publishHeartbeat_decodes {cy cy' : Node} {p : Nat} {now : Int} {bytes : List (BitVec 8)}
    {t : Topic} (h : publishHeartbeat cy p now = some (cy', bytes))
    (ht : ageTopic (cy.topics p) now = some t) (ha : t.age.toNat < 2 ^ 56)
    (he : t.evictions.toNat < 2 ^ 40) :
    ∃ hb, receiveHeartbeat [bytes] = some hb ∧ hb.topicHash = t.hash ∧
      hb.evictions = t.evictions ∧ hb.age = t.age ∧
      (hb.topicFlags8Age56 >>> 56).toNat = topicFlags t ∧
      (hb.topicNameLength8Reserved16Evictions40 >>> 56).toNat = t.name.length ∧
      hb.topicName.take t.name.length = charBytes t.name := by
  unfold publishHeartbeat at h
  rw [ht] at h
  split at h
  · rename_i t' _ htt _
    cases htt
    dsimp only at h
    split_ifs at h with hc
    cases h
    have hL : t.name.length ≤ topicNameMax := not_lt.1 fun h ↦ hc (.inl h)
    have hn : t.name.length ≤ (charBytes t.name).length := by simp [charBytes]
    have h8 : t.name.length < 2 ^ 8 := lt_of_le_of_lt hL (by decide)
    refine ⟨_, receiveHeartbeat_makeHeartbeat hL hn, rfl, evictions_makeHeartbeat he,
      age_makeHeartbeat ha, flags_makeHeartbeat (topicFlags_lt t) ha,
      nameLength_makeHeartbeat h8 (lt_trans he (by decide)), ?_⟩
    rw [name_makeHeartbeat hn, List.take_of_length_le (by simp [charBytes])]
  · cases h

/-- **Every heartbeat is decoded exactly when its fields fit.** The bytes `publish_heartbeat`
sends for the topic at `p`, as a one-fragment payload, are accepted by `on_heartbeat` and give
back the hash, eviction counter and age of the topic as `age_topic` left it, its flags, its name
length and its name, provided the age is below `2 ^ 56` and the eviction counter below
`2 ^ 40`. -/
theorem heartbeat_roundTrip {cy cy' : Node} {p : Nat} {now : Int} {bytes : List (BitVec 8)}
    {t : Topic} (h : publishHeartbeat cy p now = some (cy', bytes))
    (ht : ageTopic (cy.topics p) now = some t) (ha : t.age.toNat < 2 ^ 56)
    (he : t.evictions.toNat < 2 ^ 40) :
    ∃ hb, receiveHeartbeat [bytes] = some hb ∧ hb.topicHash = t.hash ∧
      hb.evictions = t.evictions ∧ hb.age = t.age ∧
      (hb.topicFlags8Age56 >>> 56).toNat = topicFlags t ∧
      (hb.topicNameLength8Reserved16Evictions40 >>> 56).toNat = t.name.length ∧
      hb.topicName.take t.name.length = charBytes t.name :=
  publishHeartbeat_decodes h ht ha he

theorem heartbeat_roundTrip_canNode : ∃ cy' bytes t,
    publishHeartbeat canNode 0 100 = some (cy', bytes) ∧ ageTopic (canNode.topics 0) 100 = some t ∧
      t.age.toNat < 2 ^ 56 ∧ t.evictions.toNat < 2 ^ 40 ∧
      ∃ hb, receiveHeartbeat [bytes] = some hb ∧ hb.topicHash = t.hash ∧
        hb.evictions = t.evictions ∧ hb.age = t.age ∧
        (hb.topicFlags8Age56 >>> 56).toNat = topicFlags t ∧
        (hb.topicNameLength8Reserved16Evictions40 >>> 56).toNat = t.name.length ∧
        hb.topicName.take t.name.length = charBytes t.name := by
  have hp : (publishHeartbeat canNode 0 100).isSome := by decide
  have ht : ((ageTopic (canNode.topics 0) 100).map fun t ↦
      decide (t.age.toNat < 2 ^ 56 ∧ t.evictions.toNat < 2 ^ 40)) = some true := by decide
  obtain ⟨⟨cy', bytes⟩, hpub⟩ := Option.isSome_iff_exists.1 hp
  obtain ⟨t, hage, hfit⟩ := Option.map_eq_some'.1 ht
  obtain ⟨ha, he⟩ := of_decide_eq_true hfit
  exact ⟨cy', bytes, t, hpub, hage, ha, he, heartbeat_roundTrip hpub hage ha he⟩

/-! ## Overflow -/

/-- The canonical name of the heartbeat topic `"/7509"`. -/
def heartbeatName : List Char := ['7', '5', '0', '9']

/-- A heartbeat of the node `node` received at `ts`, announcing the topic `name` with the given
hash, eviction counter and age. -/
def Transfer.gossip (node : Nat) (ts : Int) (name : List Char) (hash evictions age : BitVec 64) :
    Transfer where
  timestamp := ts
  remoteNodeId := node
  transferId := 0
  payload := [(makeHeartbeat 0 (BitVec.ofNat 64 node) 0 evictions age hash name.length
    (charBytes name)).bytes.take (heartbeatSize - (topicNameMax - name.length))]

/-- **A heartbeat reaches the merge with the fields it carries**: `on_heartbeat` of
`Transfer.gossip` merges its hash, eviction counter and age, when the name fits and the counter
and the age fit their 40 and 56 bits. -/
theorem onHeartbeat_gossip (subscribeOk : Nat → Bool) (c : Node) {node : Nat} {ts : Int}
    {name : List Char} {hash evictions age : BitVec 64} (hn : name.length ≤ topicNameMax)
    (he : evictions.toNat < 2 ^ 40) (ha : age.toNat < 2 ^ 56) :
    onHeartbeat subscribeOk c (Transfer.gossip node ts name hash evictions age) =
      mergeGossip subscribeOk c ts hash evictions age := by
  simp only [onHeartbeat, Transfer.gossip,
    receiveHeartbeat_makeHeartbeat hn (by simp [charBytes] : name.length ≤ (charBytes name).length),
    evictions_makeHeartbeat he, age_makeHeartbeat ha]
  rfl

/-- `canNode` after two heartbeats from node `9` on its heartbeat topic: the first announces the
age `2 ^ 56 - 1`, which the topic adopts, and ingesting the second raises it to `2 ^ 56`. -/
def agedNode : Node :=
  match (ingestTopicTransfer Env.can (fun _ ↦ true) canNode 0
      (Transfer.gossip 9 150 heartbeatName 7509 0 (BitVec.ofNat 64 (2 ^ 56 - 1))) 0 1).bind fun c ↦
    ingestTopicTransfer Env.can (fun _ ↦ true) c 0
      (Transfer.gossip 9 160 heartbeatName 7509 0 0) 0 1 with
  | some c => c
  | none => canNode

theorem agedNode_reachable : Reachable Env.can agedNode := by
  unfold agedNode
  split
  · rename_i c h
    obtain ⟨c₁, h₁, h₂⟩ := Option.bind_eq_some.1 h
    have hmem : ((ingestTopicTransfer Env.can (fun _ ↦ true) canNode 0
        (Transfer.gossip 9 150 heartbeatName 7509 0 (BitVec.ofNat 64 (2 ^ 56 - 1))) 0 1).map
          fun c ↦ decide (0 ∈ c.topicsByHash)) = some true := by
      decide
    rw [h₁] at hmem
    exact (canNode_reachable.step (.ingestTopicTransfer (by decide) h₁)).step
      (.ingestTopicTransfer (of_decide_eq_true (Option.some_injective _ hmem)) h₂)
  · exact canNode_reachable

/-- The heartbeat `agedNode` publishes for its heartbeat topic of age `2 ^ 56` is decoded with
age `0`. -/
theorem heartbeat_age_truncated :
    Reachable Env.can agedNode ∧
      ((publishHeartbeat agedNode 0 100).map fun r ↦
        ((r.1.topics 0).age.toNat, (receiveHeartbeat [r.2]).map fun hb ↦ hb.age.toNat)) =
        some (2 ^ 56, some 0) :=
  ⟨agedNode_reachable, by decide⟩

end Cy
