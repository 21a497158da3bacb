import Cy.Gossip

/-!
# Filling the subject-IDs

The runs that make the probing bound of `allocate_topic` fail (`Cy/Termination.lean`) and that
leave a merged heartbeat still winning (`Cy/Ring.lean`) need a node whose subject-IDs `0 … 4095`
are held by topics of low hash. This file builds such nodes by API calls: `cy_new`, then one
`cy_topic_new` per subject-ID.

## The platform

`Env.wrap` is Cyphal/CAN with the name hash chosen so that the names of the runs hash where they
must. The name `tenantKey q`, three letters that spell `q < 4096` in hexadecimal, hashes to
`12288 + q`, whose subject-ID with eviction counter `0` is `q` (`topicHash_tenantKey`); every
other name that is not pinned hashes to `wrapHash = 2 ^ 64 - 4096`.

## The run

`cy_new` puts the heartbeat topic, pinned to subject-ID `7509`, at `5000` (`wrapNode`).
`createTenants` then creates the tenants of a list in increasing order, the tenant `q` at `q`.
Each one's hash is above every hash before it, so it closes the hash index
(`Node.insertTopic_of_gt`), and its subject-ID is free, so it takes it at once
(`allocateTopic_virgin_between`): the node stays `Filled` (`Filled.createTenants`).
-/

namespace Cy

/-- The hash past which `hash + evictions` wraps after `4096` evictions. -/
def wrapHash : BitVec 64 := BitVec.ofNat 64 (2 ^ 64 - 4096)

/-- The letter of a hexadecimal digit, `a` to `p`. -/
def hexLetter (d : Nat) : Char := Char.ofNat (97 + d)

/-- The name of the tenant `q < 4096`: its three hexadecimal digits as letters, most significant
first. -/
def tenantKey (q : Nat) : List Char :=
  [hexLetter (q / 256), hexLetter (q / 16 % 16), hexLetter (q % 16)]

/-- Cyphal/CAN with the name hash of the runs: a name of three characters hashes to `12288` plus
the number its characters spell as the hexadecimal letters `a … p`, and every other name to
`wrapHash`. -/
def Env.wrap : Env :=
  { Env.can with rapidhash := fun s ↦ match s with
    | [a, b, c] =>
      BitVec.ofNat 64 (12288 + 256 * (a.toNat - 97) + 16 * (b.toNat - 97) + (c.toNat - 97))
    | _ => wrapHash }

/-- The tenant of subject-ID `q`, as arbitration sees it. -/
def denseTopic (q : Nat) : Topic := { Topic.zero with hash := BitVec.ofNat 64 (12288 + q) }

/-- The topic at `q` is the tenant `denseTopic q`, as far as arbitration sees it. -/
def Node.HoldsTenant (c : Node) (q : Nat) : Prop :=
  (c.topics q).hash = (denseTopic q).hash ∧ (c.topics q).evictions = 0 ∧ (c.topics q).age = 0

theorem holdsTenant_congr {c c' : Node} (he : c'.arbitration = c.arbitration) {q : Nat} :
    c'.HoldsTenant q ↔ c.HoldsTenant q := by
  obtain ⟨h1, h2, h3⟩ := Node.topic_congr he q
  simp only [Node.HoldsTenant, h1, h2, h3]

/-! ## Names and hashes -/

theorem hexLetter_spec {d : Nat} (hd : d < 16) :
    (hexLetter d).toNat = 97 + d ∧ hexLetter d ≠ '/' ∧ hexLetter d ≠ '0' ∧ '9' < hexLetter d :=
  (by decide : ∀ d : Fin 16, (hexLetter d).toNat = 97 + d ∧ hexLetter d ≠ '/' ∧
    hexLetter d ≠ '0' ∧ '9' < hexLetter d) ⟨d, hd⟩

/-- A tenant's name, written absolute, composes to its three letters under any namespace. -/
theorem composeTopicName_tenantKey (ns user : List Char) {q : Nat} (hq : q < 4096) :
    composeTopicName ns user ('/' :: tenantKey q) = some (tenantKey q) := by
  have h1 := (hexLetter_spec (d := q / 256) (by omega)).2.1
  have h2 := (hexLetter_spec (d := q / 16 % 16) (by omega)).2.1
  have h3 := (hexLetter_spec (d := q % 16) (by omega)).2.1
  simp only [composeTopicName, composeTmp, tenantKey, collapseSlashes, topicNameMax] at h1 h2 h3 ⊢
  simp [h1, h2, h3]

theorem topicHash_tenantKey {q : Nat} (hq : q < 4096) :
    topicHash Env.wrap.rapidhash (tenantKey q) = (denseTopic q).hash := by
  obtain ⟨ha, -, ha0, ha9⟩ := hexLetter_spec (d := q / 256) (by omega)
  have hb := (hexLetter_spec (d := q / 16 % 16) (by omega)).1
  have hc := (hexLetter_spec (d := q % 16) (by omega)).1
  have hp : parsePinned (tenantKey q) = subjectIdInvalid := by
    simp only [tenantKey]
    unfold parsePinned
    split
    · rename_i heq; cases heq
    · rename_i heq; exact absurd (List.cons.inj heq).1 ha0
    · simp only [parsePinnedDigits, ha9, or_true, if_true]
  simp only [topicHash, hp, subjectIdInvalid, totalSubjectCount, lt_irrefl, if_false]
  show BitVec.ofNat 64 (12288 + 256 * ((hexLetter (q / 256)).toNat - 97) +
    16 * ((hexLetter (q / 16 % 16)).toNat - 97) + ((hexLetter (q % 16)).toNat - 97)) = _
  rw [ha, hb, hc, denseTopic]
  congr 1
  omega

theorem denseTopic_hash {q : Nat} (hq : q < 4096) : (denseTopic q).hash.toNat = 12288 + q := by
  simp only [denseTopic, BitVec.toNat_ofNat, Nat.reducePow]
  omega

theorem isPinned_denseTopic {q : Nat} (hq : q < 4096) : isPinned (denseTopic q).hash = false := by
  simp only [isPinned, denseTopic, BitVec.toNat_ofNat, totalSubjectCount, decide_eq_false_iff_not]
  omega

theorem subjectId_denseTopic {q : Nat} (hq : q < 4096) :
    topicGetSubjectId (denseTopic q).hash (denseTopic q).evictions = q := by
  rw [topicGetSubjectId_of_not_pinned (isPinned_denseTopic hq)]
  simp only [denseTopic, Topic.zero, BitVec.ofNat_eq_ofNat, BitVec.toNat_ofNat, topicSubjectCount,
    Nat.reducePow]
  omega

/-- A name of one character, such as `"/x"` composed, hashes to `wrapHash`. -/
theorem topicHash_wrap (c : Char) (hc : parsePinned [c] = subjectIdInvalid) :
    topicHash Env.wrap.rapidhash [c] = wrapHash := by
  simp only [topicHash, hc, subjectIdInvalid, totalSubjectCount, lt_irrefl, if_false]
  rfl

/-! ## Creating a topic -/

/-- **`cy_topic_new` without a hint that inserts its topic**: of a name that composes to `nm` of
valid length, on a node with room, with the stamped node taking the new topic at `p` as `cy4`, it
allocates the topic from eviction counter `0` and counts it. -/
theorem topicNewHint_of_insert {env : Env} (subscribeOk : Nat → Bool) {c : Node} {p : Nat}
    {name nm : List Char} {hint : Nat} {now : Int} {r : BitVec 64}
    (hc : composeTopicName c.namespace_ c.name name = some nm) (h0 : nm ≠ [])
    (hlen : nm.length ≤ topicNameMax) (hn : c.topicCount < topicSubjectCount)
    (hh : env.nodeIdMax < hint) {cy4 : Node}
    (hins : ({ c with lastEventTs := now, lastLocalEventTs := now } : Node).insertTopic p
      { newTopic nm (topicHash env.rapidhash nm) now r with
        lastEventTs := now, lastLocalEventTs := now } = some cy4) :
    topicNewHint env subscribeOk c p name hint now r =
      (allocateTopic subscribeOk (cy4.topicCount + 2) cy4 p 0 true).map fun c ↦
        ({ c with topicCount := c.topicCount + 1 }, true) := by
  have ht : nm.take topicNameMax = nm := List.take_of_length_le hlen
  have hg : ¬(nm.length = 0 ∨ topicNameMax < nm.length ∨ topicSubjectCount ≤ c.topicCount) := by
    simp only [List.length_eq_zero, h0, false_or, not_or, not_lt, not_le]
    exact ⟨hlen, hn⟩
  simp only [topicNewHint, hc, ht, if_neg hg, if_neg (not_le.2 hh), Option.some_bind]
  rw [hins]

/-- `cy_topic_new` inserts a topic whose hash falls between those of `l` and `m` between them in
the hash index. -/
theorem Node.insertTopic_between {c : Node} {p : Nat} {t : Topic} {l m : List Nat}
    (hH : c.topicsByHash = l ++ m) (hp : p ∉ l ++ m) (hl : ∀ q ∈ l, c.hashOf q < t.hash.toNat)
    (hm : ∀ q ∈ m.head?, t.hash.toNat < c.hashOf q) :
    ∃ c', c.insertTopic p t = some c' ∧ c'.topicsByHash = l ++ p :: m ∧
      c'.topicsBySubjectId = c.topicsBySubjectId ∧ c'.topicCount = c.topicCount ∧
      c'.topics = Function.update c.topics p { t with lastGossip := 0 } := by
  have hk : ∀ q ∈ l ++ m,
      ({ c with topics := Function.update c.topics p t } : Node).hashOf q = c.hashOf q :=
    fun q hq ↦ by simp only [Node.hashOf, Function.update_noteq (ne_of_mem_of_not_mem hq hp)]
  have hf : Index.findOrInsert (Index.keyCmp
      ({ c with topics := Function.update c.topics p t } : Node).hashOf t.hash.toNat) p (l ++ m) =
        (p, l ++ p :: m) :=
    Index.findOrInsert_keyCmp_append
      (fun q hq ↦ by
        rw [hk q (List.mem_append_right _ (List.mem_of_mem_head? hq))]; exact hm q hq)
      (fun q hq ↦ by rw [hk q (List.mem_append_left _ hq)]; exact hl q hq)
  rw [← hH] at hf
  simp only [Node.insertTopic, hf, ne_eq, not_true_eq_false, if_false]
  exact ⟨_, rfl, rfl, rfl, rfl, rfl⟩

/-- Inserting a topic whose hash is above every hash of the index appends it to the hash index. -/
theorem Node.insertTopic_of_gt {c : Node} {p : Nat} {t : Topic} (hp : p ∉ c.topicsByHash)
    (hlt : ∀ q ∈ c.topicsByHash, c.hashOf q < t.hash.toNat) :
    ∃ c', c.insertTopic p t = some c' ∧ c'.topicsByHash = c.topicsByHash ++ [p] ∧
      c'.topicsBySubjectId = c.topicsBySubjectId ∧ c'.topicCount = c.topicCount ∧
      c'.topics = Function.update c.topics p { t with lastGossip := 0 } :=
  Node.insertTopic_between (List.append_nil _).symm (by rwa [List.append_nil]) hlt
    fun _ h ↦ absurd h (Option.not_mem_none _)

/-- **A topic whose next subject-ID is free takes it at once**: when the prologue leaves the
subject-ID index `l ++ m` and the subject-ID `s` of the new counter `e` is above those of `l` and
below those of `m`, the topic goes between them. -/
theorem allocateTopic_between (subscribeOk : Nat → Bool) (d : Nat) {c : Node} {p s : Nat}
    {e : BitVec 64} {virgin : Bool} {l m : List Nat}
    (hS : (allocPrologue c p e virgin).topicsBySubjectId = l ++ m) (hp : p ∉ l ++ m)
    (hs : topicGetSubjectId (c.topics p).hash e = s) (hl : ∀ a ∈ l, c.subjectIdOf a < s)
    (hm : ∀ b ∈ m.head?, s < c.subjectIdOf b) :
    allocateTopic subscribeOk (d + 1) c p e virgin = some (allocEpilogue subscribeOk p
      { allocPrologue c p e virgin with topicsBySubjectId := l ++ p :: m }) := by
  have hsid : ∀ a ∈ l ++ m, (allocPrologue c p e virgin).subjectIdOf a = c.subjectIdOf a :=
    fun a ha ↦ by
      rw [Node.subjectIdOf, allocPrologue_topics_of_ne _ _ (ne_of_mem_of_not_mem ha hp)]; rfl
  have hP : (allocPrologue c p e virgin).subjectIdOf p = s := by
    rw [Node.subjectIdOf, allocPrologue_topics_self]; exact hs
  have hfind : Index.findOrInsert (Index.keyCmp (allocPrologue c p e virgin).subjectIdOf s) p
      (l ++ m) = (p, l ++ p :: m) :=
    Index.findOrInsert_keyCmp_append
      (fun b hb ↦ by
        rw [hsid b (List.mem_append_right _ (List.mem_of_mem_head? hb))]; exact hm b hb)
      (fun a ha ↦ by rw [hsid _ (List.mem_append_left _ ha)]; exact hl a ha)
  rw [allocateTopic_succ]
  simp only [probe, hP, hS, hfind, if_true, Option.map_some']

/-- **`cy_topic_new` of a name whose hash is above every hash, onto a free subject-ID.** With
the subject-ID `s` of the new topic's hash above those of `l` and below those of `m` in the
subject-ID index `l ++ m`, the topic is created at `p`: it closes the hash index, goes between
`l` and `m` with eviction counter `0`, and every other topic stays as arbitration sees it. -/
theorem topicNewHint_lands {env : Env} (subscribeOk : Nat → Bool) (now : Int) (r : BitVec 64)
    {c : Node} {p s : Nat} {name nm : List Char} {hint : Nat} {l m : List Nat}
    (hc : composeTopicName c.namespace_ c.name name = some nm) (h0 : nm ≠ [])
    (hlen : nm.length ≤ topicNameMax) (hn : c.topicCount < topicSubjectCount)
    (hh : env.nodeIdMax < hint) (hp : p ∉ c.topicsByHash)
    (hlt : ∀ q ∈ c.topicsByHash, c.hashOf q < (topicHash env.rapidhash nm).toNat)
    (hS : c.topicsBySubjectId = l ++ m) (hpS : p ∉ l ++ m)
    (hs : topicGetSubjectId (topicHash env.rapidhash nm) 0 = s)
    (hl : ∀ a ∈ l, c.subjectIdOf a < s) (hm : ∀ b ∈ m.head?, s < c.subjectIdOf b) :
    ∃ c', topicNewHint env subscribeOk c p name hint now r = some (c', true) ∧
      c'.topicsByHash = c.topicsByHash ++ [p] ∧ c'.topicsBySubjectId = l ++ p :: m ∧
      c'.topicCount = c.topicCount + 1 ∧ (c'.topics p).hash = topicHash env.rapidhash nm ∧
      (c'.topics p).evictions = 0 ∧ (c'.topics p).age = 0 ∧
      ∀ x ≠ p, (c'.topics x).hash = (c.topics x).hash ∧
        (c'.topics x).evictions = (c.topics x).evictions ∧
        (c'.topics x).age = (c.topics x).age := by
  obtain ⟨c4, hins, hH4, hS4, hN4, hT4⟩ := Node.insertTopic_of_gt (p := p)
    (c := { c with lastEventTs := now, lastLocalEventTs := now })
    (t := { newTopic nm (topicHash env.rapidhash nm) now r with
      lastEventTs := now, lastLocalEventTs := now }) hp hlt
  have hx4 : ∀ x ≠ p, c4.topics x = c.topics x := fun x hx ↦ by
    rw [hT4, Function.update_noteq hx]
  have hne : ∀ x ∈ l ++ m, x ≠ p := fun x hx ↦ ne_of_mem_of_not_mem hx hpS
  have hrun := @allocateTopic_between subscribeOk (c4.topicCount + 1) c4 p s 0 true l m
    (by rw [allocPrologue_topicsBySubjectId, if_pos rfl, hS4, hS]) hpS
    (by rw [hT4, Function.update_same]; exact hs)
    (fun a ha ↦ by
      rw [Node.subjectIdOf, hx4 a (hne a (List.mem_append_left _ ha))]; exact hl a ha)
    (fun b hb ↦ by
      rw [Node.subjectIdOf, hx4 b (hne b (List.mem_append_right _ (List.mem_of_mem_head? hb)))]
      exact hm b hb)
  have hnew := topicNewHint_of_insert subscribeOk hc h0 hlen hn hh hins
  rw [show c4.topicCount + 2 = c4.topicCount + 1 + 1 from rfl, hrun, Option.map_some'] at hnew
  have he := Node.topic_congr
    (@Node.arbitration_allocEpilogue
      { allocPrologue c4 p 0 true with topicsBySubjectId := l ++ p :: m } subscribeOk p)
  refine ⟨_, hnew, by simpa using hH4, by simp, by simp [hN4], ?_, ?_, ?_, fun x hx ↦ ?_⟩
  · rw [(he p).1]; simp [hT4, newTopic]
  · rw [(he p).2.1]; simp
  · rw [(he p).2.2]; simp [hT4, newTopic, Topic.zero]
  · rw [(he x).1, (he x).2.1, (he x).2.2]
    simp [hx, hx4 x hx]

/-- A strictly increasing list of numbers below `n` has at most `n` entries. -/
theorem length_le_of_pairwise_lt {D : List Nat} {n : Nat} (hs : D.Pairwise (· < ·))
    (hb : ∀ q ∈ D, q < n) : D.length ≤ n := by
  rw [← List.toFinset_card_of_nodup (hs.imp ne_of_lt)]
  exact (Finset.card_le_card fun q hq ↦ Finset.mem_range.2 (hb q (List.mem_toFinset.1 hq))).trans
    (Finset.card_range n).le

/-! ## The run -/

/-- The node `cy_new` creates on `Env.wrap` at time `0` with node-ID `5`, a filter of two words,
and the heartbeat topic at `5000`. -/
def wrapNode : Node :=
  match cyNew Env.wrap 1 5 [] 0 (Bloom64.empty 128) 0 0 0 5000 0 (fun _ ↦ true) 0 with
  | some r => r.1
  | none => Node.initial Env.wrap 1 5 [] 0 (Bloom64.empty 128)

theorem wrapNode_reachable : Reachable Env.wrap wrapNode := by
  unfold wrapNode; split
  · exact Reachable.init ‹_›
  · rename_i hr
    have h : (cyNew Env.wrap 1 5 [] 0 (Bloom64.empty 128) 0 0 0 5000 0 (fun _ ↦ true)
      0).isSome := by decide
    rw [hr] at h; cases h

/-- `cy_topic_new` of the tenants `qs` in turn, at time `0`, the tenant `q` at `q`. -/
def createTenants (c : Node) : List Nat → Option Node
  | [] => some c
  | q :: qs => (topicNewHint Env.wrap (fun _ ↦ true) c q ('/' :: tenantKey q) subjectIdInvalid 0
      0).bind fun r ↦ createTenants r.1 qs

/-- The node that `cy_new` and the creation of the tenants `qs` leave. -/
def tenantsNode (qs : List Nat) : Node := (createTenants wrapNode qs).getD wrapNode

/-- A reachable node of `Env.wrap` holding, besides the heartbeat topic, the tenants `D` in
increasing order, the tenant `q` at `q`: the heartbeat topic, at `5000` and pinned to subject-ID
`7509`, leads the hash index and closes the subject-ID index. -/
structure Filled (c : Node) (D : List Nat) : Prop where
  reachable : Reachable Env.wrap c
  hashes : c.topicsByHash = 5000 :: D
  subjects : c.topicsBySubjectId = D ++ [5000]
  count : c.topicCount = D.length + 1
  slots : D.Pairwise (· < ·)
  bound : ∀ q ∈ D, q < 4096
  tenant : ∀ q ∈ D, c.HoldsTenant q
  beat : (c.topics 5000).hash = 7509 ∧ (c.topics 5000).evictions = 0

theorem filled_wrapNode : Filled wrapNode [] where
  reachable := wrapNode_reachable
  hashes := by decide
  subjects := by decide
  count := by decide
  slots := .nil
  bound _ h := absurd h (List.not_mem_nil _)
  tenant _ h := absurd h (List.not_mem_nil _)
  beat := by decide

namespace Filled

variable {c : Node} {D : List Nat}

theorem subjectIdOf_beat (h : Filled c D) : c.subjectIdOf 5000 = 7509 := by
  rw [Node.subjectIdOf, h.beat.1]; rfl

theorem subjectIdOf_tenant (h : Filled c D) {q : Nat} (hq : q ∈ D) : c.subjectIdOf q = q := by
  rw [Node.subjectIdOf, (h.tenant q hq).1, (h.tenant q hq).2.1]
  exact subjectId_denseTopic (h.bound q hq)

theorem hashOf_lt (h : Filled c D) {x : Nat} (hx : ∀ d ∈ D, 12288 + d < x) (h7 : 7509 < x) :
    ∀ a ∈ c.topicsByHash, c.hashOf a < x := by
  rw [h.hashes]
  rintro a (_ | ⟨_, ha⟩)
  · rw [Node.hashOf, h.beat.1]; exact h7
  · rw [Node.hashOf, (h.tenant a ha).1, denseTopic_hash (h.bound a ha)]
    exact hx a ha

/-- **Creating the next tenant**: `cy_topic_new` of the tenant `q`, above every tenant so far,
creates it at `q` on subject-ID `q`, and the node stays filled. -/
theorem topicNewHint_tenant (subscribeOk : Nat → Bool) (now : Int) (r : BitVec 64)
    (h : Filled c D) {q : Nat} (hq : q < 4096) (hD : ∀ d ∈ D, d < q) :
    ∃ c', topicNewHint Env.wrap subscribeOk c q ('/' :: tenantKey q) subjectIdInvalid now r =
      some (c', true) ∧ Filled c' (D ++ [q]) := by
  have hqD : q ∉ D := fun hd ↦ lt_irrefl q (hD q hd)
  have hqH : q ∉ c.topicsByHash := by
    rw [h.hashes]; rintro (_ | ⟨_, hd⟩)
    · omega
    · exact hqD hd
  have ht := topicHash_tenantKey hq
  have ht' : (topicHash Env.wrap.rapidhash (tenantKey q)).toNat = 12288 + q := by
    rw [ht, denseTopic_hash hq]
  obtain ⟨c', hnew, hH, hS, hN, hh, he, ha, hX⟩ := topicNewHint_lands subscribeOk now r
    (s := q) (l := D) (m := [5000]) (composeTopicName_tenantKey c.namespace_ c.name hq)
    (by simp [tenantKey]) (by simp [tenantKey, topicNameMax])
    (by rw [h.count, topicSubjectCount]; have := length_le_of_pairwise_lt h.slots h.bound; omega)
    (show Env.wrap.nodeIdMax < subjectIdInvalid by decide) hqH
    (h.hashOf_lt (fun d hd ↦ by rw [ht']; have := hD d hd; omega) (by rw [ht']; omega))
    h.subjects (by simp only [List.mem_append, List.mem_singleton, not_or]; exact ⟨hqD, by omega⟩)
    (by rw [ht]; exact subjectId_denseTopic hq)
    (fun a ha ↦ by rw [h.subjectIdOf_tenant ha]; exact hD a ha)
    (fun b hb ↦ by cases hb; rw [h.subjectIdOf_beat]; omega)
  refine ⟨c', hnew, .step h.reachable (.topicNewHint hqH hnew), by rw [hH, h.hashes]; rfl,
    by rw [hS]; simp, by rw [hN, h.count]; simp,
    List.pairwise_append.2 ⟨h.slots, List.pairwise_singleton _ _,
      fun a ha b hb ↦ (List.mem_singleton.1 hb) ▸ hD a ha⟩,
    fun x hx ↦ ?_, fun x hx ↦ ?_, ?_⟩
  · rcases List.mem_append.1 hx with hx | hx
    · exact h.bound x hx
    · rw [List.mem_singleton.1 hx]; exact hq
  · by_cases hxq : x = q
    · subst hxq; exact ⟨hh.trans ht, he, ha⟩
    · obtain ⟨h1, h2, h3⟩ := hX x hxq
      rw [Node.HoldsTenant, h1, h2, h3]
      exact h.tenant x ((List.mem_append.1 hx).resolve_right fun h' ↦ hxq (List.mem_singleton.1 h'))
  · obtain ⟨h1, h2, -⟩ := hX 5000 (by omega)
    rw [h1, h2]
    exact h.beat

/-- **The run keeps the node filled**: from a filled node, creating tenants above those it holds,
in increasing order, gives a filled node with all of them. -/
theorem createTenants : ∀ {c : Node} {D qs : List Nat}, Filled c D →
    (D ++ qs).Pairwise (· < ·) → (∀ q ∈ qs, q < 4096) →
      ∃ c', Cy.createTenants c qs = some c' ∧ Filled c' (D ++ qs)
  | c, _, [], h, _, _ => ⟨c, rfl, by simpa using h⟩
  | c, D, q :: qs, h, hs, hb => by
    have hD : ∀ d ∈ D, d < q :=
      fun d hd ↦ (List.pairwise_append.1 hs).2.2 d hd q (List.mem_cons_self _ _)
    obtain ⟨c', hc', hf⟩ := h.topicNewHint_tenant (fun _ ↦ true) 0 0
      (hb q (List.mem_cons_self _ _)) hD
    obtain ⟨c'', hc'', hf''⟩ := @createTenants _ _ qs hf (by simpa using hs)
      fun x hx ↦ hb x (List.mem_cons_of_mem _ hx)
    refine ⟨c'', ?_, by simpa using hf''⟩
    simp only [Cy.createTenants, hc', Option.some_bind, hc'']

end Filled

/-- **`cy_new` and the tenants `qs`**, in increasing order below `4096`, leave a filled node. -/
theorem filled_tenantsNode {qs : List Nat} (hs : qs.Pairwise (· < ·)) (hb : ∀ q ∈ qs, q < 4096) :
    Filled (tenantsNode qs) qs := by
  obtain ⟨c, hc, hf⟩ := filled_wrapNode.createTenants hs hb
  rw [tenantsNode, hc]
  exact hf

end Cy
