import Cy.Api

/-!
# What a call may change of the topic and subscription objects

Three parts of a node change only in two calls, and a fourth in none after `cy_new`. The
subscription objects, with their `next` pointers, are written only by
`cy_subscribe_with_transfer_id_timeout`. The set of live topics and the name and hash of a topic
are written only by `cy_topic_new_hint`, when it creates the topic:
no call removes a topic (`cy_topic_destroy` is a stub), and none renames or rehashes one. The
heartbeat topic and the two periods of the heartbeat schedule are written by `cy_new` only.

`Node.ident` collects the four. Every other call keeps it: the heartbeat merge and the allocation
change a topic's eviction counter, age, gossip time and flags only, the future calls change the
futures and their indices, the update changes the node-ID, the filter and the schedule. The
lemmas below say so call by call; `Node.ident_subscribeWithTransferIdTimeout` and
`Node.ident_topicNewHint` say what the other two keep. Along any run, then, no topic disappears
or changes its name or hash, and the heartbeat topic stays where `cy_new` put it
(`topics_kept_of_run`). The invariants of `Cy.Subscriptions` and `Cy.Creation` are read through
this view.
-/

namespace Cy

namespace Node

/-- The heartbeat topic and the two periods of the heartbeat schedule. -/
def heartbeatSetup (cy : Node) : Option Nat × Int × Int :=
  (cy.heartbeatTopic, cy.heartbeatPeriodMax, cy.heartbeatFullGossipCyclePeriodMax)

/-- The subscription objects, the live topics, the heartbeat set-up, and the name and hash of
every topic. -/
def ident (cy : Node) :
    (Nat → Subscription) × List Nat × (Option Nat × Int × Int) × (Nat → List Char × BitVec 64) :=
  (cy.subs, cy.topicsByHash, cy.heartbeatSetup, fun q ↦ ((cy.topics q).name, (cy.topics q).hash))

variable {cy cy' : Node}

theorem subs_eq_of_ident (h : cy'.ident = cy.ident) : cy'.subs = cy.subs := congrArg (·.1) h

theorem topicsByHash_eq_of_ident (h : cy'.ident.2 = cy.ident.2) :
    cy'.topicsByHash = cy.topicsByHash :=
  congrArg (·.1) h

theorem heartbeatSetup_eq_of_ident (h : cy'.ident.2 = cy.ident.2) :
    cy'.heartbeatSetup = cy.heartbeatSetup :=
  congrArg (·.2.1) h

theorem heartbeatTopic_eq_of_setup (h : cy'.heartbeatSetup = cy.heartbeatSetup) :
    cy'.heartbeatTopic = cy.heartbeatTopic :=
  congrArg (·.1) h

theorem heartbeatTopic_eq_of_ident (h : cy'.ident.2 = cy.ident.2) :
    cy'.heartbeatTopic = cy.heartbeatTopic :=
  heartbeatTopic_eq_of_setup (heartbeatSetup_eq_of_ident h)

theorem topics_eq_of_ident (h : cy'.ident.2 = cy.ident.2) (q : Nat) :
    (cy'.topics q).name = (cy.topics q).name ∧ (cy'.topics q).hash = (cy.topics q).hash :=
  Prod.mk.inj (congrFun (congrArg (·.2.2) h) q)

/-- Changing one topic without touching its name and hash. -/
@[simp] theorem ident_modifyTopic {p : Nat} {f : Topic → Topic}
    (hn : (f (cy.topics p)).name = (cy.topics p).name)
    (hh : (f (cy.topics p)).hash = (cy.topics p).hash) :
    (cy.modifyTopic p f).ident = cy.ident := by
  simp only [ident, modifyTopic_subs, modifyTopic_topicsByHash, Prod.mk.injEq, true_and]
  refine ⟨rfl, ?_⟩
  funext q
  by_cases hq : q = p
  · subst hq; simp [hn, hh]
  · simp [hq]

section
variable {p : Nat} {ts : Int} {fut : Future} {st : FutureState} {lr : Option Transfer}
@[simp] theorem ident_stampEvent : (cy.stampEvent p ts).ident = cy.ident :=
  ident_modifyTopic rfl rfl
@[simp] theorem ident_stampLocalEvent : (cy.stampLocalEvent p ts).ident = cy.ident :=
  ident_modifyTopic rfl rfl
@[simp] theorem ident_updateLastGossipTime : (cy.updateLastGossipTime p ts).ident = cy.ident :=
  (ident_modifyTopic rfl rfl : ({ cy with topicsByGossipTime := cy.topicsByGossipTime.erase p
    }.modifyTopic p fun t ↦ { t with lastGossip := ts }).ident = _)
@[simp] theorem ident_scheduleGossipAsap : (cy.scheduleGossipAsap p).ident = cy.ident := by
  unfold scheduleGossipAsap; split <;> simp
@[simp] theorem ident_setFuture : (cy.setFuture p fut).ident = cy.ident := rfl
@[simp] theorem ident_insertDeadline : (cy.insertDeadline p ts).ident = cy.ident := rfl
@[simp] theorem ident_finalizeFuture : (cy.finalizeFuture p st lr).ident = cy.ident :=
  ident_modifyTopic rfl rfl
end

@[simp] theorem ident_markNeighbor {nodeIdMax remoteNodeId : Nat} {r : BitVec 64} :
    (markNeighbor nodeIdMax cy remoteNodeId r).ident = cy.ident := rfl

/-! ## The topic calls -/

theorem ident_allocateTopic {subscribeOk : Nat → Bool} {d p : Nat} {e : BitVec 64}
    {virgin : Bool} (h : allocateTopic subscribeOk d cy p e virgin = some cy') :
    cy'.ident = cy.ident :=
  allocateTopic_view ident
    (fun c q _ hf ↦ ident_modifyTopic (congrArg Topic.name (hf (c.topics q)):)
      (congrArg Topic.hash (hf (c.topics q)):))
    (fun _ _ ↦ rfl) (fun _ _ ↦ ident_scheduleGossipAsap) subscribeOk h

theorem ident_mergeGossip {subscribeOk : Nat → Bool} {ts : Int} {oh oe oa : BitVec 64}
    (hm : mergeGossip subscribeOk cy ts oh oe oa = some cy') : cy'.ident = cy.ident := by
  simp only [mergeGossip] at hm
  split at hm
  · split at hm
    · cases hm; rfl
    · split at hm
      · cases hm; simp
      · obtain ⟨c, hc, rfl⟩ := Option.map_eq_some'.1 hm
        simpa using ident_allocateTopic hc
  · split at hm
    · split at hm
      · cases hm; simp
      · obtain ⟨c, hc, rfl⟩ := Option.map_eq_some'.1 hm
        split <;> simp [ident_allocateTopic hc]
    · cases hm; simp

theorem ident_runCallbacks {subscribeOk : Nat → Bool} {p : Nat} {tr : Transfer} :
    ∀ {l : List Nat} {cy cy' : Node}, runCallbacks subscribeOk p tr l cy = some cy' →
      cy'.ident = cy.ident
  | [], _, _, h => by cases h; rfl
  | s :: l, cy, cy', h => by
    simp only [runCallbacks] at h
    split_ifs at h
    · obtain ⟨c, hc, h⟩ := Option.bind_eq_some.1 h
      rw [ident_runCallbacks h]
      simp only [onHeartbeat] at hc
      split at hc
      · cases hc; rfl
      · exact ident_mergeGossip hc
    · exact ident_runCallbacks h

theorem ident_ingestTopicTransfer {env : Env} {subscribeOk : Nat → Bool} {p : Nat}
    {tr : Transfer} {r : BitVec 64} {fuel : Nat}
    (h : ingestTopicTransfer env subscribeOk cy p tr r fuel = some cy') :
    cy'.ident = cy.ident := by
  simp only [ingestTopicTransfer] at h
  split at h
  · cases h; simp
  · obtain ⟨l, -, hr⟩ := Option.bind_eq_some.1 h
    simp [ident_runCallbacks hr]

/-! ## The future calls and the update -/

theorem ident_retireTimedOutFutures {now : Int} :
    ∀ {n : Nat} {cy cy' : Node}, retireTimedOutFutures now n cy = some cy' →
      cy'.ident = cy.ident
  | 0, _, _, h => by cases h; rfl
  | n + 1, cy, cy', h => by
    simp only [retireTimedOutFutures] at h
    split at h
    · cases h; rfl
    · split_ifs at h
      · exact (ident_retireTimedOutFutures h).trans ident_finalizeFuture
      · cases h; rfl

theorem ident_ingestTopicResponseTransfer {env : Env} {tr : Transfer} {r : BitVec 64}
    (h : ingestTopicResponseTransfer env cy tr r = some cy') : cy'.ident = cy.ident := by
  simp only [ingestTopicResponseTransfer] at h
  split_ifs at h
  · cases h; rfl
  split at h
  · cases h; rfl
  split at h
  · cases h; rfl
  split_ifs at h
  cases h; exact ident_finalizeFuture

theorem ident_publish {env : Env} {p : Nat} {future : Option Nat} {responseDeadline res : Int} :
    (publish env cy p future responseDeadline res).1.ident = cy.ident := by
  simp only [publish]
  split
  · simp
  · split_ifs <;> simp

/-- `age_topic` changes only the age and the ageing time. -/
theorem name_hash_ageTopic {t t' : Topic} {now : Int} (h : ageTopic t now = some t') :
    t'.name = t.name ∧ t'.hash = t.hash := by
  simp only [ageTopic] at h
  split_ifs at h <;> cases h <;> exact ⟨rfl, rfl⟩

theorem ident_publishHeartbeat {p : Nat} {now : Int} {bytes : List (BitVec 8)}
    (h : publishHeartbeat cy p now = some (cy', bytes)) : cy'.ident = cy.ident := by
  unfold publishHeartbeat at h
  split at h
  · rename_i t _ ha _
    dsimp only at h
    split_ifs at h
    cases h
    obtain ⟨hn, hh⟩ := name_hash_ageTopic ha
    simp [hn, hh]
  · cases h

theorem ident_update {env : Env} {now : Int} {r₁ r₂ r₃ : BitVec 64} {setRes pubRes res : Int}
    {calls : List Call} (hu : update env cy now r₁ r₂ r₃ setRes pubRes = some (cy', res, calls)) :
    cy'.ident = cy.ident := by
  obtain ⟨cy1, cy2, calls2, h1, h2, hrest⟩ := update_cases hu
  have h2' : cy2.ident = cy.ident := by
    have : (processCollision env cy1 now).1.ident = cy1.ident := by
      unfold processCollision; split_ifs <;> rfl
    rw [h2] at this; exact this.trans (ident_retireTimedOutFutures h1)
  rcases hrest with ⟨-, rfl, -, -⟩ | ⟨-, cy3, res3, calls3, hpick, -, hrest⟩
  · exact h2'
  have h3 : cy3.ident = cy.ident := by
    rcases hpick with ⟨-, n, b, -, rfl, -, -⟩ | ⟨-, rfl, -, -⟩ <;> exact h2'
  rcases hrest with ⟨-, rfl, -, -⟩ | ⟨-, p, cy4, bytes, -, h4, -, rfl, -, -⟩
  · exact h3
  · exact (ident_publishHeartbeat h4).trans h3

theorem ident_notifyDiscriminatorCollision (p : Option Nat) :
    (notifyDiscriminatorCollision cy p).ident = cy.ident := by
  cases p with
  | none => rfl
  | some q =>
    simp only [notifyDiscriminatorCollision]
    split_ifs
    · exact ident_scheduleGossipAsap
    · rfl

/-- `cy_topic_new_hint` writes no subscription object and keeps the heartbeat topic; every topic
that was live stays live, and every topic but the new one keeps its name and hash. -/
theorem ident_topicNewHint {env : Env} {subscribeOk : Nat → Bool} {p : Nat} {name : List Char}
    {hint : Nat} {now : Int} {r : BitVec 64} {created : Bool} (hp : p ∉ cy.topicsByHash)
    (h : topicNewHint env subscribeOk cy p name hint now r = some (cy', created)) :
    cy'.subs = cy.subs ∧ cy'.heartbeatSetup = cy.heartbeatSetup ∧
      (∀ q ∈ cy.topicsByHash, q ∈ cy'.topicsByHash) ∧ (created = true → p ∈ cy'.topicsByHash) ∧
      ∀ q ≠ p, (cy'.topics q).name = (cy.topics q).name ∧
        (cy'.topics q).hash = (cy.topics q).hash := by
  rcases topicNewHint_cases h with ⟨rfl, rfl⟩ | ⟨-, rfl, rfl⟩ |
    ⟨cy1, t1, cy4, _, hc1, -, hi, hc, rfl, -⟩
  · exact ⟨rfl, rfl, fun _ ↦ id, nofun, fun _ _ ↦ ⟨rfl, rfl⟩⟩
  · exact ⟨rfl, rfl, fun _ ↦ id, nofun, fun _ _ ↦ ⟨rfl, rfl⟩⟩
  -- the insertion: the hash index keeps its topics and gains `p`, the topic array changes at `p`
  have h4 : cy4.subs = cy1.subs ∧ cy4.heartbeatSetup = cy1.heartbeatSetup ∧
      (∀ q ∈ cy1.topicsByHash, q ∈ cy4.topicsByHash) ∧ p ∈ cy4.topicsByHash ∧
      cy4.topics = Function.update cy1.topics p { t1 with lastGossip := 0 } := by
    simp only [insertTopic] at hi
    split_ifs at hi with hr
    cases hi
    refine ⟨rfl, rfl, fun q hq ↦ ?_, Eq.subst (motive := (· ∈ _)) (not_not.1 hr)
      Index.mem_findOrInsert, rfl⟩
    rcases hf : Index.find (Index.keyCmp (Node.hashOf { cy1 with
        topics := Function.update cy1.topics p t1 }) t1.hash.toNat) cy1.topicsByHash with _ | g
    · exact (Index.findOrInsert_of_find_none hf).2.mem_iff.2 (List.mem_cons_of_mem _ hq)
    · rw [Index.findOrInsert_of_find_some hf]; exact hq
  have he := ident_allocateTopic hc
  have hp1 : p ∉ cy1.topicsByHash := by rcases hc1 with rfl | rfl <;> exact hp
  refine ⟨(subs_eq_of_ident he).trans ?_, (congrArg (·.2.2.1) he).trans ?_,
    fun q hq ↦ (topicsByHash_eq_of_ident (congrArg (·.2) he)).symm ▸ h4.2.2.1 q ?_,
    fun _ ↦ (topicsByHash_eq_of_ident (congrArg (·.2) he)).symm ▸ h4.2.2.2.1, fun q hq ↦ ?_⟩
  · rcases hc1 with rfl | rfl <;> exact h4.1
  · rcases hc1 with rfl | rfl <;> exact h4.2.1
  · rcases hc1 with rfl | rfl <;> exact hq
  · obtain ⟨hn, hh⟩ := topics_eq_of_ident (congrArg (·.2) he) q
    rw [h4.2.2.2.2, Function.update_noteq hq] at hn hh
    rcases hc1 with rfl | rfl <;> exact ⟨hn, hh⟩

/-- A subscription keeps the live topics and every topic's name and hash; it writes only the
subscription objects. -/
theorem ident_subscribeWithTransferIdTimeout {p s extent fuel : Nat} {timeout res err : Int}
    {callback : Callback}
    (h : subscribeWithTransferIdTimeout cy p s extent timeout callback fuel res = some (cy', err)) :
    cy'.ident.2 = cy.ident.2 := by
  simp only [subscribeWithTransferIdTimeout, Option.ite_none_left_eq_some,
    Option.map_eq_some'] at h
  obtain ⟨-, l, -, h⟩ := h
  rw [← (Prod.mk.inj h).1]
  simp only [ident, Prod.mk.injEq, true_and]
  refine ⟨rfl, funext fun q ↦ ?_⟩
  by_cases hq : q = p
  · subst hq; simp only [Function.update_same]; split <;> split <;> rfl
  · simp only [Function.update_noteq hq]

end Node

/-! ## Along a run -/

/-- What every call keeps: the heartbeat set-up, and each live topic, which stays live with its
name and hash. -/
theorem Step.kept {env : Env} {cy cy' : Node} {calls : List Call} (hs : Step env cy calls cy') :
    cy'.heartbeatSetup = cy.heartbeatSetup ∧ ∀ p ∈ cy.topicsByHash, p ∈ cy'.topicsByHash ∧
      (cy'.topics p).name = (cy.topics p).name ∧ (cy'.topics p).hash = (cy.topics p).hash := by
  have of_ident : ∀ {c : Node}, c.ident.2 = cy.ident.2 → c.heartbeatSetup = cy.heartbeatSetup ∧
      ∀ p ∈ cy.topicsByHash, p ∈ c.topicsByHash ∧
        (c.topics p).name = (cy.topics p).name ∧ (c.topics p).hash = (cy.topics p).hash :=
    fun {c} he ↦ ⟨Node.heartbeatSetup_eq_of_ident he, fun p hp ↦
      ⟨Node.topicsByHash_eq_of_ident he ▸ hp, Node.topics_eq_of_ident he p⟩⟩
  cases hs with
  | topicNewHint hp ht =>
    obtain ⟨-, h1, h2, -, h3⟩ := Node.ident_topicNewHint hp ht
    exact ⟨h1, fun q hq ↦ ⟨h2 q hq, h3 q (ne_of_mem_of_not_mem hq hp)⟩⟩
  | ingestTopicTransfer _ hi => exact of_ident (congrArg (·.2) (Node.ident_ingestTopicTransfer hi))
  | ingestTopicResponseTransfer hi =>
    exact of_ident (congrArg (·.2) (Node.ident_ingestTopicResponseTransfer hi))
  | update hu => exact of_ident (congrArg (·.2) (Node.ident_update hu))
  | publish _ _ => exact of_ident (congrArg (·.2) Node.ident_publish)
  | respond => exact of_ident rfl
  | subscribe _ _ hs => exact of_ident (Node.ident_subscribeWithTransferIdTimeout hs)
  | notifyDiscriminatorCollision _ =>
    exact of_ident (congrArg (·.2) (Node.ident_notifyDiscriminatorCollision _))
  | notifyNodeIdCollision => exact of_ident rfl

/-- **No run removes a topic.** Along every sequence of API calls, the heartbeat topic stays
the one `cy_new` set up, and every topic live at the start is live at the end, with the name and
the hash it had: `cy_topic_destroy` is a stub, and no call renames or rehashes a topic. -/
theorem topics_kept_of_run {env : Env} {cy cy' : Node}
    (h : Relation.ReflTransGen (fun a b ↦ ∃ calls, Step env a calls b) cy cy') :
    cy'.heartbeatTopic = cy.heartbeatTopic ∧ ∀ p ∈ cy.topicsByHash, p ∈ cy'.topicsByHash ∧
      (cy'.topics p).name = (cy.topics p).name ∧ (cy'.topics p).hash = (cy.topics p).hash := by
  induction h with
  | refl => exact ⟨rfl, fun p hp ↦ ⟨hp, rfl, rfl⟩⟩
  | tail _ hs ih =>
    obtain ⟨k₁, k₂⟩ := Step.kept hs.choose_spec
    refine ⟨(Node.heartbeatTopic_eq_of_setup k₁).trans ih.1, fun p hp ↦ ?_⟩
    obtain ⟨h₁, h₂, h₃⟩ := ih.2 p hp
    obtain ⟨h₁', h₂', h₃'⟩ := k₂ p h₁
    exact ⟨h₁', h₂'.trans h₂, h₃'.trans h₃⟩

/-- A node-ID collision notified on `canNode` keeps its topics. -/
theorem topics_kept_canNode :
    (notifyNodeIdCollision canNode).heartbeatTopic = canNode.heartbeatTopic ∧
      ∀ p ∈ canNode.topicsByHash, p ∈ (notifyNodeIdCollision canNode).topicsByHash ∧
        ((notifyNodeIdCollision canNode).topics p).name = (canNode.topics p).name ∧
        ((notifyNodeIdCollision canNode).topics p).hash = (canNode.topics p).hash :=
  @topics_kept_of_run Env.can canNode _ (.single ⟨[], .notifyNodeIdCollision⟩)

end Cy
