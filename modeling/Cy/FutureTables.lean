import Cy.Api
import Cy.Registry

/-!
# The future indices in every reachable state

A future that waits for responses is registered in two indices: its topic's
`futures_by_transfer_id`, under its masked transfer-ID, and the node's `futures_by_deadline`.
`FutureTables` says that the two agree. The deadline index holds distinct futures in
non-decreasing deadline order, each pending and in the transfer-ID index of its topic, which is
live. The transfer-ID index of every live topic is strictly ordered by masked transfer-ID and
holds only futures of that topic that are in the deadline index. `futureTables_of_reachable`
proves it of every reachable node, and `registry_of_reachable` reads it as a registry: a future is
registered in both indices or in neither, and a response can match at most one of them.

## Structure of the proof

Most calls leave alone what the future indices read, `Node.futureView`: the live topics, the
deadline index, the future objects and every topic's transfer-ID index. For an allocation this
is `allocateTopic_view`. Three operations change it, each with its lemma: a future is finalized
(`FutureTables.finalizeFuture`, of which the deadline sweep and a response are made), a
publication registers a future (`FutureTables.register`), and a topic is created with an empty
transfer-ID index (`FutureTables.insertTopic`).

A publication whose masked transfer-ID is taken, or that the transport refuses, leaves its
future pending in neither index (`Cy.Registry`). The invariant speaks of registered futures
only, and the precondition of `Step.publish`, a future object that no index holds, is what keeps
such a future from being registered twice.
-/

namespace Cy

/-! ## What the future indices read -/

namespace Node

/-- What the future indices read of a node: the live topics, the deadline index, the future
objects and every topic's transfer-ID index. -/
def futureView (cy : Node) : List Nat × List Nat × (Nat → Future) × (Nat → List Nat) :=
  (cy.topicsByHash, cy.futuresByDeadline, cy.futures, fun q ↦ (cy.topics q).futuresByTransferId)

variable {cy cy' : Node}

/-- Changing one topic without touching its transfer-ID index. -/
theorem futureView_modifyTopic {p : Nat} {f : Topic → Topic}
    (hf : (f (cy.topics p)).futuresByTransferId = (cy.topics p).futuresByTransferId) :
    (cy.modifyTopic p f).futureView = cy.futureView := by
  simp only [futureView, modifyTopic_topicsByHash, modifyTopic_futuresByDeadline,
    modifyTopic_futures, Prod.mk.injEq, true_and]
  funext q
  by_cases hq : q = p
  · subst hq; simp [hf]
  · simp [hq]

section
variable {p : Nat} {ts : Int}
@[simp] theorem futureView_stampEvent : (cy.stampEvent p ts).futureView = cy.futureView := by
  unfold stampEvent; exact futureView_modifyTopic (by rfl)
@[simp] theorem futureView_stampLocalEvent :
    (cy.stampLocalEvent p ts).futureView = cy.futureView := by
  unfold stampLocalEvent; exact futureView_modifyTopic (by rfl)
@[simp] theorem futureView_updateLastGossipTime :
    (cy.updateLastGossipTime p ts).futureView = cy.futureView := by
  unfold updateLastGossipTime
  exact (futureView_modifyTopic rfl : ({ cy with topicsByGossipTime := cy.topicsByGossipTime.erase p
    }.modifyTopic p fun t ↦ { t with lastGossip := ts }).futureView = _)
@[simp] theorem futureView_scheduleGossipAsap :
    (cy.scheduleGossipAsap p).futureView = cy.futureView := by
  unfold scheduleGossipAsap; split <;> simp
end

theorem futureView_allocateTopic {subscribeOk : Nat → Bool} {d p : Nat} {e : BitVec 64}
    {virgin : Bool} (h : allocateTopic subscribeOk d cy p e virgin = some cy') :
    cy'.futureView = cy.futureView :=
  allocateTopic_view futureView
    (fun c q _ hf ↦ futureView_modifyTopic (congrArg Topic.futuresByTransferId (hf (c.topics q)):))
    (fun _ _ ↦ rfl) (fun _ _ ↦ futureView_scheduleGossipAsap) subscribeOk h

theorem futureView_mergeGossip {subscribeOk : Nat → Bool} {ts : Int} {oh oe oa : BitVec 64}
    (hm : mergeGossip subscribeOk cy ts oh oe oa = some cy') : cy'.futureView = cy.futureView := by
  have hmerge : ∀ (c : Node) (q : Nat),
      (c.modifyTopic q fun t ↦ { t with age := maxU64 t.age oa }).futureView = c.futureView :=
    fun _ _ ↦ futureView_modifyTopic rfl
  simp only [mergeGossip] at hm
  split at hm
  · split at hm
    · cases hm; rfl
    · split at hm
      · cases hm; simp
      · obtain ⟨c, hc, rfl⟩ := Option.map_eq_some'.1 hm
        simpa using futureView_allocateTopic hc
  · split at hm
    · split at hm
      · cases hm; simp [hmerge]
      · obtain ⟨c, hc, rfl⟩ := Option.map_eq_some'.1 hm
        have := futureView_allocateTopic hc
        split <;> simp [hmerge, this]
    · cases hm; exact hmerge _ _

theorem futureView_runCallbacks {subscribeOk : Nat → Bool} {p : Nat} {tr : Transfer} :
    ∀ {l : List Nat} {cy cy' : Node}, runCallbacks subscribeOk p tr l cy = some cy' →
      cy'.futureView = cy.futureView
  | [], _, _, h => by cases h; rfl
  | s :: l, cy, cy', h => by
    simp only [runCallbacks] at h
    split_ifs at h
    · obtain ⟨c, hc, h⟩ := Option.bind_eq_some.1 h
      rw [futureView_runCallbacks h]
      simp only [onHeartbeat] at hc
      split at hc
      · cases hc; rfl
      · exact futureView_mergeGossip hc
    · exact futureView_runCallbacks h

theorem futureView_ingestTopicTransfer {env : Env} {subscribeOk : Nat → Bool} {p : Nat}
    {tr : Transfer} {r : BitVec 64} {fuel : Nat}
    (h : ingestTopicTransfer env subscribeOk cy p tr r fuel = some cy') :
    cy'.futureView = cy.futureView := by
  have h1 : ((markNeighbor env.nodeIdMax cy tr.remoteNodeId r).modifyTopic p
      fun t ↦ { t with age := t.age + 1 }).futureView = cy.futureView := futureView_modifyTopic rfl
  simp only [ingestTopicTransfer] at h
  split at h
  · cases h; exact h1
  · obtain ⟨l, -, hr⟩ := Option.bind_eq_some.1 h
    rw [futureView_runCallbacks hr, ← h1]
    exact futureView_modifyTopic (by rfl)

/-- `age_topic` changes only the age and the ageing time. -/
theorem futuresByTransferId_ageTopic {t t' : Topic} {now : Int} (h : ageTopic t now = some t') :
    t'.futuresByTransferId = t.futuresByTransferId := by
  simp only [ageTopic] at h
  split_ifs at h <;> cases h <;> rfl

theorem futureView_publishHeartbeat {p : Nat} {now : Int} {bytes : List (BitVec 8)}
    (h : publishHeartbeat cy p now = some (cy', bytes)) : cy'.futureView = cy.futureView := by
  unfold publishHeartbeat at h
  split at h
  · rename_i t _ ha _
    dsimp only at h
    split_ifs at h
    cases h
    simp [futureView_modifyTopic, futuresByTransferId_ageTopic ha]
  · cases h

theorem futureView_processCollision (env : Env) (cy : Node) (now : Int) :
    (processCollision env cy now).1.futureView = cy.futureView := by
  unfold processCollision; split_ifs <;> rfl

theorem futureView_subscribeWithTransferIdTimeout {p s extent fuel : Nat} {timeout res err : Int}
    {callback : Callback}
    (h : subscribeWithTransferIdTimeout cy p s extent timeout callback fuel res = some (cy', err)) :
    cy'.futureView = cy.futureView := by
  simp only [subscribeWithTransferIdTimeout, Option.ite_none_left_eq_some,
    Option.map_eq_some'] at h
  obtain ⟨-, l, -, h⟩ := h
  rw [← (Prod.mk.inj h).1]
  simp only [futureView, Prod.mk.injEq, true_and]
  funext q
  by_cases hq : q = p
  · subst hq; simp only [Function.update_same]; split <;> split <;> rfl
  · simp only [Function.update_noteq hq]

theorem futureView_notifyDiscriminatorCollision (cy : Node) (p : Option Nat) :
    (Cy.notifyDiscriminatorCollision cy p).futureView = cy.futureView := by
  cases p with
  | none => rfl
  | some q =>
    simp only [Cy.notifyDiscriminatorCollision]
    split_ifs
    · exact futureView_scheduleGossipAsap
    · rfl

theorem topicsByHash_eq_of_futureView (he : cy'.futureView = cy.futureView) :
    cy'.topicsByHash = cy.topicsByHash := congrArg (·.1) he

theorem futuresByDeadline_eq_of_futureView (he : cy'.futureView = cy.futureView) :
    cy'.futuresByDeadline = cy.futuresByDeadline := congrArg (·.2.1) he

theorem transfer_eq_of_futureView (he : cy'.futureView = cy.futureView) (q : Nat) :
    (cy'.topics q).futuresByTransferId = (cy.topics q).futuresByTransferId :=
  congrFun (congrArg (·.2.2.2) he) q

/-! ## Finalizing a future -/

section Finalize

variable {f : Nat} {st : FutureState} {lr : Option Transfer}

@[simp] theorem finalizeFuture_topicsByHash :
    (cy.finalizeFuture f st lr).topicsByHash = cy.topicsByHash := rfl

@[simp] theorem finalizeFuture_futuresByDeadline :
    (cy.finalizeFuture f st lr).futuresByDeadline = cy.futuresByDeadline.erase f := rfl

theorem finalizeFuture_futures :
    (cy.finalizeFuture f st lr).futures =
      Function.update cy.futures f { cy.futures f with state := st, lastResponse := lr } := rfl

@[simp] theorem finalizeFuture_topic (g : Nat) :
    ((cy.finalizeFuture f st lr).futures g).topic = (cy.futures g).topic := by
  by_cases hg : g = f <;> simp [finalizeFuture_futures, hg]

@[simp] theorem finalizeFuture_deadlineOf :
    (cy.finalizeFuture f st lr).deadlineOf = cy.deadlineOf := by
  funext g; by_cases hg : g = f <;> simp [deadlineOf, finalizeFuture_futures, hg]

@[simp] theorem finalizeFuture_transferIdOf :
    (cy.finalizeFuture f st lr).transferIdOf = cy.transferIdOf := by
  funext g; by_cases hg : g = f <;> simp [transferIdOf, finalizeFuture_futures, hg]

/-- The future leaves the transfer-ID index of its topic. -/
theorem finalizeFuture_transfer (q : Nat) :
    ((cy.finalizeFuture f st lr).topics q).futuresByTransferId =
      if q = (cy.futures f).topic then (cy.topics q).futuresByTransferId.erase f
      else (cy.topics q).futuresByTransferId := by
  simp only [finalizeFuture, modifyTopic_topics]
  split
  · subst q; rfl
  · rfl

end Finalize

end Node

/-! ## The invariant -/

/-- **The future indices agree.** The deadline index holds distinct futures in non-decreasing
deadline order, each pending and in the transfer-ID index of its topic, which is live; the
transfer-ID index of every live topic is strictly ordered by masked transfer-ID and holds only
futures of that topic that are in the deadline index. -/
structure FutureTables (cy : Node) : Prop where
  deadline_sorted : Index.Sorted (· ≤ ·) cy.deadlineOf cy.futuresByDeadline
  deadline_nodup : cy.futuresByDeadline.Nodup
  deadline_pending : ∀ f ∈ cy.futuresByDeadline, (cy.futures f).state = .pending
  deadline_topic : ∀ f ∈ cy.futuresByDeadline, (cy.futures f).topic ∈ cy.topicsByHash ∧
    f ∈ (cy.topics (cy.futures f).topic).futuresByTransferId
  transfer_sorted : ∀ p ∈ cy.topicsByHash,
    Index.Sorted (· < ·) cy.transferIdOf (cy.topics p).futuresByTransferId
  transfer_mem : ∀ p ∈ cy.topicsByHash, ∀ f ∈ (cy.topics p).futuresByTransferId,
    (cy.futures f).topic = p ∧ f ∈ cy.futuresByDeadline

instance : DecidablePred FutureTables := fun cy ↦
  decidable_of_iff (Index.Sorted (· ≤ ·) cy.deadlineOf cy.futuresByDeadline ∧
      cy.futuresByDeadline.Nodup ∧
      (∀ f ∈ cy.futuresByDeadline, (cy.futures f).state = .pending) ∧
      (∀ f ∈ cy.futuresByDeadline, (cy.futures f).topic ∈ cy.topicsByHash ∧
        f ∈ (cy.topics (cy.futures f).topic).futuresByTransferId) ∧
      (∀ p ∈ cy.topicsByHash,
        Index.Sorted (· < ·) cy.transferIdOf (cy.topics p).futuresByTransferId) ∧
      (∀ p ∈ cy.topicsByHash, ∀ f ∈ (cy.topics p).futuresByTransferId,
        (cy.futures f).topic = p ∧ f ∈ cy.futuresByDeadline))
    ⟨fun ⟨a, b, c, d, e, f⟩ ↦ ⟨a, b, c, d, e, f⟩, fun ⟨a, b, c, d, e, f⟩ ↦ ⟨a, b, c, d, e, f⟩⟩

namespace FutureTables

variable {cy cy' : Node}

/-- **The invariant reads only `Node.futureView`.** -/
theorem of_futureView (h : FutureTables cy) (he : cy'.futureView = cy.futureView) :
    FutureTables cy' := by
  simp only [Node.futureView, Prod.mk.injEq] at he
  obtain ⟨h1, h2, h3, h4⟩ := he
  have hd : cy'.deadlineOf = cy.deadlineOf := by funext q; simp only [Node.deadlineOf, h3]
  have ht : cy'.transferIdOf = cy.transferIdOf := by funext q; simp only [Node.transferIdOf, h3]
  have hq : ∀ q, (cy'.topics q).futuresByTransferId = (cy.topics q).futuresByTransferId :=
    congrFun h4
  obtain ⟨a, b, c, d, e, f⟩ := h
  exact ⟨by rwa [hd, h2], by rwa [h2], by rwa [h2, h3], by simpa only [h1, h2, h3, hq],
    by simpa only [h1, ht, hq], by simpa only [h1, h2, h3, hq]⟩

theorem nodup_transfer (h : FutureTables cy) {p : Nat} (hp : p ∈ cy.topicsByHash) :
    (cy.topics p).futuresByTransferId.Nodup :=
  (h.transfer_sorted p hp).nodup

/-- A future in the transfer-ID index of a live topic belongs to that topic. -/
theorem ne_of_mem_transfer (h : FutureTables cy) {p f g : Nat} (hp : p ∈ cy.topicsByHash)
    (hg : g ∈ (cy.topics p).futuresByTransferId) (hf : p ≠ (cy.futures f).topic) : g ≠ f :=
  fun e ↦ hf (e ▸ (h.transfer_mem p hp g hg).1).symm

/-- Finalizing `f` takes `f` out of every live topic's transfer-ID index and nothing else. -/
theorem mem_transfer_finalizeFuture (h : FutureTables cy) {f : Nat} {st : FutureState}
    {lr : Option Transfer} {q : Nat} (hq : q ∈ cy.topicsByHash) (g : Nat) :
    g ∈ ((cy.finalizeFuture f st lr).topics q).futuresByTransferId ↔
      g ∈ (cy.topics q).futuresByTransferId ∧ g ≠ f := by
  rw [Node.finalizeFuture_transfer]
  split
  · rw [(h.nodup_transfer hq).mem_erase_iff, and_comm]
  · exact ⟨fun hg ↦ ⟨hg, h.ne_of_mem_transfer hq hg ‹_›⟩, And.left⟩

/-- **Finalizing a future keeps the indices in agreement**, whatever the future. -/
theorem finalizeFuture (h : FutureTables cy) (f : Nat) (st : FutureState)
    (lr : Option Transfer) : FutureTables (cy.finalizeFuture f st lr) := by
  have hne : ∀ g ∈ cy.futuresByDeadline.erase f, g ≠ f :=
    fun g hg e ↦ h.deadline_nodup.not_mem_erase (e ▸ hg)
  have hfut : ∀ g ≠ f, (cy.finalizeFuture f st lr).futures g = cy.futures g :=
    fun g hg ↦ by simp [Node.finalizeFuture_futures, hg]
  refine ⟨?_, ?_, fun g hg ↦ ?_, fun g hg ↦ ?_, fun q hq ↦ ?_, fun q hq g hg ↦ ?_⟩
  · simpa using h.deadline_sorted.erase f
  · simpa using h.deadline_nodup.erase f
  · rw [hfut g (hne g hg)]
    exact h.deadline_pending g (List.mem_of_mem_erase hg)
  · obtain ⟨h1, h2⟩ := h.deadline_topic g (List.mem_of_mem_erase hg)
    simp only [Node.finalizeFuture_topic, Node.finalizeFuture_topicsByHash]
    exact ⟨h1, (h.mem_transfer_finalizeFuture h1 g).2 ⟨h2, hne g hg⟩⟩
  · rw [Node.finalizeFuture_transferIdOf, Node.finalizeFuture_transfer]
    split
    · exact (h.transfer_sorted q hq).erase f
    · exact h.transfer_sorted q hq
  · obtain ⟨hg, hgf⟩ := (h.mem_transfer_finalizeFuture hq g).1 hg
    obtain ⟨h1, h2⟩ := h.transfer_mem q hq g hg
    exact ⟨by rw [Node.finalizeFuture_topic, h1], (List.mem_erase_of_ne hgf).2 h2⟩

/-- Writing a future object that no index holds keeps the indices in agreement. -/
theorem setFuture (h : FutureTables cy) {f : Nat} (fut : Future) (hD : f ∉ cy.futuresByDeadline)
    (hT : ∀ q ∈ cy.topicsByHash, f ∉ (cy.topics q).futuresByTransferId) :
    FutureTables (cy.setFuture f fut) := by
  have hfut : ∀ g, g ≠ f → (cy.setFuture f fut).futures g = cy.futures g :=
    fun g hg ↦ by simp [hg]
  have hD' : ∀ g ∈ cy.futuresByDeadline, g ≠ f := fun g hg e ↦ hD (e ▸ hg)
  have hT' : ∀ q ∈ cy.topicsByHash, ∀ g ∈ (cy.topics q).futuresByTransferId, g ≠ f :=
    fun q hq g hg e ↦ hT q hq (e ▸ hg)
  refine ⟨h.deadline_sorted.congr fun g hg ↦ ?_, h.deadline_nodup, fun g hg ↦ ?_, fun g hg ↦ ?_,
    fun q hq ↦ (h.transfer_sorted q hq).congr fun g hg ↦ ?_, fun q hq g hg ↦ ?_⟩
  · simp only [Node.deadlineOf, hfut g (hD' g hg)]
  · rw [hfut g (hD' g hg)]; exact h.deadline_pending g hg
  · rw [hfut g (hD' g hg)]; exact h.deadline_topic g hg
  · simp only [Node.transferIdOf, hfut g (hT' q hq g hg)]
  · rw [hfut g (hT' q hq g hg)]; exact h.transfer_mem q hq g hg

/-- **Registering a future keeps the indices in agreement**: a pending future of a live topic
that no index holds, and whose masked transfer-ID is free in its topic's index, enters that
index and the deadline index under its deadline. -/
theorem register (h : FutureTables cy) {p f : Nat} {dl : Int} (hp : p ∈ cy.topicsByHash)
    (htopic : (cy.futures f).topic = p) (hpend : (cy.futures f).state = .pending)
    (hdl : (cy.futures f).deadline = dl) (hD : f ∉ cy.futuresByDeadline)
    (hfind : Index.find (Index.keyCmp cy.transferIdOf (cy.transferIdOf f))
      (cy.topics p).futuresByTransferId = none) :
    FutureTables ((cy.modifyTopic p fun t ↦ { t with futuresByTransferId :=
      (Index.findOrInsert (Index.keyCmp cy.transferIdOf (cy.transferIdOf f)) f
        (cy.topics p).futuresByTransferId).2 }).insertDeadline f dl) := by
  set r2 := (Index.findOrInsert (Index.keyCmp cy.transferIdOf (cy.transferIdOf f)) f
    (cy.topics p).futuresByTransferId).2
  set c4 := (cy.modifyTopic p fun t ↦ { t with futuresByTransferId := r2 }).insertDeadline f dl
  have hperm : r2.Perm (f :: (cy.topics p).futuresByTransferId) :=
    (Index.findOrInsert_of_find_none hfind).2
  have hDperm := (Index.findOrInsert_stableCmp (k := cy.deadlineOf) dl f cy.futuresByDeadline).2
  have hF : c4.futures = cy.futures := rfl
  have hH : c4.topicsByHash = cy.topicsByHash := rfl
  have hDD : c4.futuresByDeadline =
      (Index.findOrInsert (Index.stableCmp cy.deadlineOf dl) f cy.futuresByDeadline).2 := rfl
  have htq : ∀ q, (c4.topics q).futuresByTransferId =
      if q = p then r2 else (cy.topics q).futuresByTransferId := fun q ↦ by
    simp only [c4, Node.insertDeadline_topics, Node.modifyTopic_topics]; split <;> rfl
  -- the old entries stay, `f` joins both indices
  have hmemD : ∀ g, g ∈ c4.futuresByDeadline ↔ g = f ∨ g ∈ cy.futuresByDeadline := fun g ↦ by
    rw [hDD, hDperm.mem_iff, List.mem_cons]
  refine ⟨Index.sorted_findOrInsert_stableCmp (k := cy.deadlineOf) hdl h.deadline_sorted,
    hDperm.nodup_iff.2 (List.nodup_cons.2 ⟨hD, h.deadline_nodup⟩), fun g hg ↦ ?_, fun g hg ↦ ?_,
    fun q hq ↦ ?_, fun q hq g hg ↦ ?_⟩
  · rw [hF]
    rcases (hmemD g).1 hg with rfl | hg
    · exact hpend
    · exact h.deadline_pending g hg
  · rw [hF, hH, htq]
    rcases (hmemD g).1 hg with rfl | hg
    · rw [htopic, if_pos rfl]
      exact ⟨hp, hperm.mem_iff.2 (List.mem_cons_self _ _)⟩
    · obtain ⟨h1, h2⟩ := h.deadline_topic g hg
      refine ⟨h1, ?_⟩
      split
      · rename_i he; rw [he] at h2; exact hperm.mem_iff.2 (List.mem_cons_of_mem _ h2)
      · exact h2
  · show Index.Sorted _ cy.transferIdOf _
    rw [htq]
    split
    · subst q
      exact Index.sorted_findOrInsert_keyCmp rfl (h.transfer_sorted p hp) hfind
    · exact h.transfer_sorted q hq
  · rw [htq] at hg
    rw [hF]
    split at hg
    · subst q
      rcases List.mem_cons.1 (hperm.mem_iff.1 hg) with rfl | hg
      · exact ⟨htopic, (hmemD _).2 (.inl rfl)⟩
      · exact ⟨(h.transfer_mem p hp g hg).1, (hmemD g).2 (.inr (h.transfer_mem p hp g hg).2)⟩
    · exact ⟨(h.transfer_mem q hq g hg).1, (hmemD g).2 (.inr (h.transfer_mem q hq g hg).2)⟩

theorem retireTimedOutFutures {now : Int} :
    ∀ {n : Nat} {cy cy' : Node}, FutureTables cy →
      Cy.retireTimedOutFutures now n cy = some cy' → FutureTables cy'
  | 0, _, _, h, hr => by cases hr; exact h
  | n + 1, cy, cy', h, hr => by
    simp only [Cy.retireTimedOutFutures] at hr
    split at hr
    · cases hr; exact h
    · split_ifs at hr
      · exact retireTimedOutFutures (h.finalizeFuture _ _ _) hr
      · cases hr; exact h

theorem ingestTopicResponseTransfer (h : FutureTables cy) {env : Env} {tr : Transfer}
    {r : BitVec 64} (hi : Cy.ingestTopicResponseTransfer env cy tr r = some cy') :
    FutureTables cy' := by
  have h1 : FutureTables (markNeighbor env.nodeIdMax cy tr.remoteNodeId r) := h.of_futureView rfl
  simp only [Cy.ingestTopicResponseTransfer] at hi
  split_ifs at hi
  · cases hi; exact h1
  · split at hi
    · cases hi; exact h1
    · split at hi
      · cases hi; exact h1
      · split_ifs at hi
        cases hi
        exact h1.finalizeFuture _ _ _

/-- **A publication keeps the indices in agreement**, for a future that no index holds: it
registers the future, or leaves it out of both indices when the transfer-ID is taken or the
transport refuses. -/
theorem publish (h : FutureTables cy) {env : Env} {p : Nat} {future : Option Nat}
    {responseDeadline res : Int} (hp : p ∈ cy.topicsByHash)
    (hf : ∀ f ∈ future, f ∉ cy.futuresByDeadline ∧
      ∀ q ∈ cy.topicsByHash, f ∉ (cy.topics q).futuresByTransferId) :
    FutureTables (Cy.publish env cy p future responseDeadline res).1 := by
  have he1 : (cy.modifyTopic p fun t ↦ { t with publishing := true }).futureView =
      cy.futureView := Node.futureView_modifyTopic rfl
  have hbump : ∀ c : Node, FutureTables c →
      FutureTables (c.modifyTopic p fun t ↦ { t with pubTransferId := t.pubTransferId + 1 }) :=
    fun c hc ↦ hc.of_futureView (Node.futureView_modifyTopic rfl)
  cases future with
  | none => exact hbump _ (h.of_futureView he1)
  | some f =>
    obtain ⟨hD, hT⟩ := hf f rfl
    simp only [Cy.publish]
    set cy1 := cy.modifyTopic p fun t ↦ { t with publishing := true }
    set cy2 := cy1.setFuture f (pendingFuture env cy1 p responseDeadline)
    have hT1 : ∀ q ∈ cy1.topicsByHash, f ∉ (cy1.topics q).futuresByTransferId := fun q hq ↦ by
      rw [Node.transfer_eq_of_futureView he1]; exact hT q hq
    have h2 : FutureTables cy2 := (h.of_futureView he1).setFuture _ hD hT1
    have hf2 : f ∉ (cy2.topics p).futuresByTransferId := hT1 p hp
    have hfut2 : cy2.futures f = pendingFuture env cy1 p responseDeadline := by simp [cy2]
    split_ifs with hr hres
    · exact h2
    · -- the transport accepted the publication: the future is registered
      exact hbump _ (h2.register hp (by rw [hfut2]; rfl) (by rw [hfut2]; rfl) (by rw [hfut2]; rfl)
        hD (Index.find_eq_none_of_findOrInsert hf2 (not_not.1 hr)))
    · -- the transport refused: the future leaves the transfer-ID index again
      have herase : (Index.findOrInsert (Index.keyCmp cy2.transferIdOf (cy2.transferIdOf f)) f
          (cy2.topics p).futuresByTransferId).2.erase f = (cy2.topics p).futuresByTransferId :=
        Index.erase_findOrInsert hf2
      refine hbump _ (h2.of_futureView ?_)
      simp only [Node.futureView, Node.modifyTopic_topicsByHash, Node.modifyTopic_futuresByDeadline,
        Node.modifyTopic_futures, Prod.mk.injEq, true_and]
      funext q
      by_cases hq : q = p
      · subst hq; simp [herase]
      · simp [hq]

/-- A node that differs from `cy` by a new live topic `p` with an empty transfer-ID index. -/
theorem of_newTopic (h : FutureTables cy) {p : Nat} (hp : p ∉ cy.topicsByHash)
    (hD : cy'.futuresByDeadline = cy.futuresByDeadline) (hF : cy'.futures = cy.futures)
    (hH : ∀ q, q ∈ cy'.topicsByHash ↔ q = p ∨ q ∈ cy.topicsByHash)
    (hT : ∀ q, (cy'.topics q).futuresByTransferId =
      if q = p then [] else (cy.topics q).futuresByTransferId) :
    FutureTables cy' := by
  have hd : cy'.deadlineOf = cy.deadlineOf := by funext q; simp only [Node.deadlineOf, hF]
  have ht : cy'.transferIdOf = cy.transferIdOf := by funext q; simp only [Node.transferIdOf, hF]
  have hne : ∀ q ∈ cy.topicsByHash, q ≠ p := fun q hq e ↦ hp (e ▸ hq)
  refine ⟨by rw [hd, hD]; exact h.deadline_sorted, by rw [hD]; exact h.deadline_nodup,
    fun g hg ↦ ?_, fun g hg ↦ ?_, fun q hq ↦ ?_, fun q hq g hg ↦ ?_⟩
  · rw [hD] at hg; rw [hF]; exact h.deadline_pending g hg
  · rw [hD] at hg
    obtain ⟨h1, h2⟩ := h.deadline_topic g hg
    rw [hF, hT, if_neg (hne _ h1)]
    exact ⟨(hH _).2 (.inr h1), h2⟩
  · rw [ht, hT]
    split
    · exact List.Pairwise.nil
    · exact h.transfer_sorted q (((hH q).1 hq).resolve_left ‹_›)
  · rw [hT] at hg
    split at hg
    · exact absurd hg (List.not_mem_nil g)
    · rw [hF, hD]; exact h.transfer_mem q (((hH q).1 hq).resolve_left ‹_›) g hg

/-- **Inserting a topic with an empty transfer-ID index keeps the indices in agreement.** -/
theorem insertTopic (h : FutureTables cy) {p : Nat} {t : Topic} (hp : p ∉ cy.topicsByHash)
    (ht : t.futuresByTransferId = []) {cy4 : Node} (hi : cy.insertTopic p t = some cy4) :
    FutureTables cy4 := by
  simp only [Node.insertTopic] at hi
  split_ifs at hi with hr
  cases hi
  have hperm := (Index.findOrInsert_of_find_none (n := p)
    (Index.find_eq_none_of_findOrInsert hp (not_not.1 hr))).2
  refine h.of_newTopic hp rfl rfl (fun q ↦ by rw [hperm.mem_iff, List.mem_cons]) fun q ↦ ?_
  simp only [Function.update_apply]
  split <;> simp [ht]

theorem topicNewHint (h : FutureTables cy) {env : Env} {subscribeOk : Nat → Bool} {p : Nat}
    {name : List Char} {hint : Nat} {now : Int} {r : BitVec 64} {created : Bool}
    (hp : p ∉ cy.topicsByHash)
    (ht : Cy.topicNewHint env subscribeOk cy p name hint now r = some (cy', created)) :
    FutureTables cy' := by
  simp only [Cy.topicNewHint] at ht
  rcases hf : composeTopicName cy.namespace_ cy.name name with _ | full <;> rw [hf] at ht
  · cases ht; exact h
  dsimp only at ht
  by_cases hbad : (full.take topicNameMax).length = 0 ∨
    topicNameMax < (full.take topicNameMax).length ∨ topicSubjectCount ≤ cy.topicCount
  · rw [if_pos hbad] at ht; cases ht; exact h
  rw [if_neg hbad] at ht
  obtain ⟨⟨cy1, t1⟩, h1, ht⟩ := Option.bind_eq_some.1 ht
  -- the new topic object starts with an empty transfer-ID index
  have ht1 : cy1.futureView = cy.futureView ∧ t1.futuresByTransferId = [] := by
    by_cases hh : hint ≤ env.nodeIdMax
    · rw [if_pos hh] at h1
      obtain ⟨e, -, he⟩ := Option.map_eq_some'.1 h1
      cases he; exact ⟨rfl, rfl⟩
    · rw [if_neg hh] at h1; cases h1; exact ⟨rfl, rfl⟩
  have h1' := h.of_futureView ht1.1
  rcases hi : cy1.insertTopic p t1 with _ | cy4 <;> rw [hi] at ht
  · cases ht; exact h1'
  · obtain ⟨c, hc, he⟩ := Option.map_eq_some'.1 ht
    cases he
    have hp1 : p ∉ cy1.topicsByHash := by rwa [Node.topicsByHash_eq_of_futureView ht1.1]
    exact ((h1'.insertTopic hp1 ht1.2 hi).of_futureView
      (Node.futureView_allocateTopic hc)).of_futureView rfl

theorem update (h : FutureTables cy) {env : Env} {now : Int} {r₁ r₂ r₃ : BitVec 64}
    {setRes pubRes res : Int} {calls : List Call}
    (hu : Cy.update env cy now r₁ r₂ r₃ setRes pubRes = some (cy', res, calls)) :
    FutureTables cy' := by
  obtain ⟨cy1, cy2, calls2, h1, h2, hrest⟩ := update_cases hu
  have ht2 : FutureTables cy2 := by
    have := (retireTimedOutFutures h h1).of_futureView
      (Node.futureView_processCollision env cy1 now)
    rw [h2] at this; exact this
  rcases hrest with ⟨-, rfl, -, -⟩ | ⟨-, cy3, res3, calls3, hpick, -, hrest⟩
  · exact ht2
  have ht3 : FutureTables cy3 := by
    rcases hpick with ⟨-, n, b, -, rfl, -, -⟩ | ⟨-, rfl, -, -⟩
    · exact ht2.of_futureView rfl
    · exact ht2
  rcases hrest with ⟨-, rfl, -, -⟩ | ⟨-, p, cy4, bytes, -, h4, -, rfl, -, -⟩
  · exact ht3
  · exact (ht3.of_futureView (Node.futureView_publishHeartbeat h4)).of_futureView rfl

theorem notifyDiscriminatorCollision (h : FutureTables cy) (p : Option Nat) :
    FutureTables (Cy.notifyDiscriminatorCollision cy p) := by
  cases p with
  | none => exact h
  | some q =>
    simp only [Cy.notifyDiscriminatorCollision]
    split_ifs
    · exact h.of_futureView Node.futureView_scheduleGossipAsap
    · exact h

theorem cyNew {env : Env} {uid : BitVec 64} {nodeId : Nat} {ns : List Char}
    {now : Int} {bloom : Bloom64} {r₁ r₂ : BitVec 64} {setRes : Int} {p s : Nat}
    {subscribeOk : Nat → Bool} {subRes res : Int} {calls : List Call} {cy : Node}
    (h : Cy.cyNew env uid nodeId ns now bloom r₁ r₂ setRes p s subscribeOk subRes =
      some (cy, res, calls)) : FutureTables cy := by
  obtain ⟨-, -, cy1, res1, hc, hrest⟩ := cyNew_cases h
  -- a fresh node has no topics and no futures
  have ht1 : FutureTables cy1 ∧ cy1.topicsByHash = [] := by
    rcases claimNodeId_cases hc with ⟨-, rfl, -⟩ | ⟨-, rfl, -⟩ <;>
      exact ⟨⟨.nil, List.nodup_nil, by simp [Node.initial], by simp [Node.initial],
        by simp [Node.initial], by simp [Node.initial]⟩, rfl⟩
  rcases hrest with ⟨-, rfl⟩ | ⟨cy2, _, h2, hsub⟩
  · exact ht1.1
  have ht2 := ht1.1.topicNewHint (ht1.2 ▸ List.not_mem_nil p) h2
  rcases hsub with ⟨-, _, h3⟩ | ⟨-, rfl⟩
  · exact (show FutureTables { cy2 with heartbeatTopic := some p } from ht2.of_futureView rfl
      ).of_futureView (Node.futureView_subscribeWithTransferIdTimeout h3)
  · exact ht2

/-- **Every call keeps the future indices in agreement.** -/
theorem step {env : Env} {calls : List Call} (h : FutureTables cy) (hs : Step env cy calls cy') :
    FutureTables cy' := by
  cases hs with
  | topicNewHint hp ht => exact h.topicNewHint hp ht
  | ingestTopicTransfer _ hi => exact h.of_futureView (Node.futureView_ingestTopicTransfer hi)
  | ingestTopicResponseTransfer hi => exact h.ingestTopicResponseTransfer hi
  | update hu => exact h.update hu
  | publish hp hf => exact h.publish hp hf
  | respond => exact h
  | subscribe _ _ hs => exact h.of_futureView (Node.futureView_subscribeWithTransferIdTimeout hs)
  | notifyDiscriminatorCollision _ => exact h.notifyDiscriminatorCollision _
  | notifyNodeIdCollision => exact h.of_futureView rfl

end FutureTables

/-- **The future indices agree in every reachable state**: the deadline index holds distinct
pending futures in non-decreasing deadline order, each registered in the transfer-ID index of its
live topic, and the transfer-ID index of every live topic is a search tree over distinct masked
transfer-IDs of that topic's futures, all in the deadline index. -/
theorem futureTables_of_reachable {env : Env} {cy : Node} (h : Reachable env cy) :
    FutureTables cy :=
  Reachable.induct_on (fun h ↦ FutureTables.cyNew h) (fun _ ht hs ↦ ht.step hs) h

/-- **The response registry of every reachable node.** The two indices register the same
futures: a future is in `futures_by_deadline` exactly when it is in the transfer-ID index of a
live topic, and then it is pending and in the index of its own topic only. The deadline index
lists each once in non-decreasing deadline order, and no two futures of one topic share a masked
transfer-ID, so a response can match at most one. -/
theorem registry_of_reachable {env : Env} {cy : Node} (hr : Reachable env cy) :
    cy.futuresByDeadline.Nodup ∧ Index.Sorted (· ≤ ·) cy.deadlineOf cy.futuresByDeadline ∧
      (∀ f, f ∈ cy.futuresByDeadline ↔
        ∃ p ∈ cy.topicsByHash, f ∈ (cy.topics p).futuresByTransferId) ∧
      (∀ f ∈ cy.futuresByDeadline, (cy.futures f).state = .pending ∧
        ∀ p ∈ cy.topicsByHash, f ∈ (cy.topics p).futuresByTransferId ↔ p = (cy.futures f).topic) ∧
      ∀ p ∈ cy.topicsByHash, ∀ f ∈ (cy.topics p).futuresByTransferId,
        ∀ g ∈ (cy.topics p).futuresByTransferId,
          (cy.futures f).transferIdMasked = (cy.futures g).transferIdMasked → f = g := by
  have h := futureTables_of_reachable hr
  refine ⟨h.deadline_nodup, h.deadline_sorted, fun f ↦ ⟨fun hf ↦ ?_, ?_⟩,
    fun f hf ↦ ⟨h.deadline_pending f hf, fun p hp ↦ ⟨fun hfp ↦ ?_, ?_⟩⟩,
    fun p hp f hf g hg e ↦ Index.eq_of_key_eq (h.transfer_sorted p hp) hf hg
      (congrArg BitVec.toNat e)⟩
  · exact ⟨_, (h.deadline_topic f hf).1, (h.deadline_topic f hf).2⟩
  · rintro ⟨p, hp, hfp⟩
    exact (h.transfer_mem p hp f hfp).2
  · exact (h.transfer_mem p hp f hfp).1.symm
  · rintro rfl
    exact (h.deadline_topic f hf).2

/-- After one publication with the future `0` on `canNode`, that future is the one registered,
pending, and in the index of the heartbeat topic. -/
theorem registry_publishRun :
    Reachable Env.can (publishRun 0) ∧ (publishRun 0).futuresByDeadline = [0] ∧
      ((publishRun 0).futures 0).state = .pending ∧
      0 ∈ ((publishRun 0).topics 0).futuresByTransferId := by
  have hD : (publishRun 0).futuresByDeadline = [0] := by decide
  obtain ⟨-, -, -, hreg, -⟩ := registry_of_reachable (publishRun_reachable 0)
  have h0 := hreg 0 (by rw [hD]; exact List.mem_singleton_self 0)
  exact ⟨publishRun_reachable 0, hD, h0.1,
    (h0.2 0 (by rw [publishRun_topicsByHash]; decide)).2 (by decide)⟩

end Cy
