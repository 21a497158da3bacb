import Cy.Api

/-!
# The future registry after a publication

`cy_publish` with a future marks the future pending and then registers it: under its masked
transfer-ID in the topic's `futures_by_transfer_id`, and once the transport has accepted the
publication, under its deadline in `futures_by_deadline`. A pending future is meant to be in
both indices, and a future in neither is meant to be done. When the masked transfer-ID is free
and the transport accepts, that is what happens (`publish_registers`).

## Two paths that leave a pending future unregistered

When the masked transfer-ID is taken, `cy_publish` returns an error after the future was marked
pending. When the transport refuses the publication, the future leaves the transfer-ID index
again but keeps its pending state. `publish_refused` says that both end with a pending future in
neither index, for any node that does not hold the future yet, and `publish_failure_pending`
that a reachable node gets there in one step.

## The transfer-ID counter

`cy_publish` counts every publication in the topic's `pub_transfer_id`, except the one whose
masked transfer-ID is taken: that exit returns before the count (`publish_pubTransferId`). With
the transfer-ID mask `31` of Cyphal/CAN the masked transfer-ID of a pending future comes round
after `32` publications, and from then on the counter stays where it is and every publication
with a future fails the same way for as long as that future is pending
(`publish_taken_stalls`). A failed publication leaves both future indices as they were
(`publish_failure_indices`).
-/

namespace Cy

/-- A publication that the transport refuses leaves its future pending and in neither index,
for every node that does not hold the future already. -/
theorem publish_refused {env : Env} {cy : Node} {p f : Nat} {responseDeadline res : Int}
    (hres : res < 0) (hp : f ∉ (cy.topics p).futuresByTransferId)
    (hd : f ∉ cy.futuresByDeadline) :
    ((publish env cy p (some f) responseDeadline res).1.futures f).state = .pending ∧
      f ∉ (publish env cy p (some f) responseDeadline res).1.futuresByDeadline ∧
      f ∉ ((publish env cy p (some f) responseDeadline res).1.topics p).futuresByTransferId := by
  simp only [publish]
  split_ifs with hr hres'
  · -- the masked transfer-ID is taken: the future is not registered
    simp [hd, hp, pendingFuture]
  · exact absurd hres' (not_le.2 hres)
  · -- the transport failed: the future leaves the transfer-ID index again
    have hp' : f ∉ ((cy.modifyTopic p fun t ↦ { t with publishing := true }).topics
        p).futuresByTransferId := by simpa using hp
    have hperm := ((Index.findOrInsert_of_find_none
      (Index.find_eq_none_of_findOrInsert hp' (not_not.1 hr))).2.erase f).trans
        (by rw [List.erase_cons_head])
    refine ⟨by simp [pendingFuture], by simpa using hd, ?_⟩
    simpa using fun h ↦ hp' (hperm.mem_iff.1 h)

/-- **A refused publication leaves a pending future in neither index.** From every reachable
node, publishing on one of its topics with a future it does not hold, when `topic_publish`
fails, is a step to a reachable node in which the future is pending but neither in
`futures_by_deadline` nor in the topic's `futures_by_transfer_id`. -/
theorem publish_failure_pending {env : Env} {cy : Node} {p f : Nat} {responseDeadline res : Int}
    (h : Reachable env cy) (hp : p ∈ cy.topicsByHash)
    (hf : f ∉ cy.futuresByDeadline ∧ ∀ q ∈ cy.topicsByHash, f ∉ (cy.topics q).futuresByTransferId)
    (hres : res < 0) :
    Reachable env (publish env cy p (some f) responseDeadline res).1 ∧
      ((publish env cy p (some f) responseDeadline res).1.futures f).state = .pending ∧
      f ∉ (publish env cy p (some f) responseDeadline res).1.futuresByDeadline ∧
      f ∉ ((publish env cy p (some f) responseDeadline res).1.topics p).futuresByTransferId :=
  ⟨h.step (.publish hp fun _ hg ↦ Option.mem_some_iff.1 hg ▸ hf),
    publish_refused hres (hf.2 p hp) hf.1⟩

theorem publish_failure_pending_canNode :
    0 ∈ canNode.topicsByHash ∧
      (0 ∉ canNode.futuresByDeadline ∧
        ∀ q ∈ canNode.topicsByHash, 0 ∉ (canNode.topics q).futuresByTransferId) ∧
      Reachable Env.can (publish Env.can canNode 0 (some 0) 1000 (-1)).1 ∧
      ((publish Env.can canNode 0 (some 0) 1000 (-1)).1.futures 0).state = .pending ∧
      0 ∉ (publish Env.can canNode 0 (some 0) 1000 (-1)).1.futuresByDeadline ∧
      0 ∉ ((publish Env.can canNode 0 (some 0) 1000 (-1)).1.topics 0).futuresByTransferId :=
  ⟨by decide, by decide,
    publish_failure_pending canNode_reachable (by decide) (by decide) (by decide)⟩

/-! ## The transfer-ID counter -/

section Counter

variable {env : Env} {cy : Node} {p : Nat} {future : Option Nat} {responseDeadline res : Int}

@[simp] theorem publish_topicsByHash :
    (publish env cy p future responseDeadline res).1.topicsByHash = cy.topicsByHash := by
  cases future with
  | none => simp [publish]
  | some f => simp only [publish]; split_ifs <;> simp [Node.setFuture, Node.insertDeadline]

/-- **`cy_publish` counts the publication**, except when the masked transfer-ID is taken: that
exit returns `-12345` with the counter where it was. -/
theorem publish_pubTransferId :
    ((publish env cy p future responseDeadline res).1.topics p).pubTransferId =
        (cy.topics p).pubTransferId + 1 ∨
      (publish env cy p future responseDeadline res).2 = -12345 ∧
        ((publish env cy p future responseDeadline res).1.topics p).pubTransferId =
          (cy.topics p).pubTransferId := by
  cases future with
  | none => exact .inl (by simp [publish])
  | some f =>
    simp only [publish]
    split_ifs
    · exact .inr ⟨rfl, by simp [Node.setFuture]⟩
    · exact .inl (by simp)
    · exact .inl (by simp)

/-- **A failed publication leaves both future indices as they were**, when the future is not in
the topic's index yet. -/
theorem publish_failure_indices (hf : ∀ f ∈ future, f ∉ (cy.topics p).futuresByTransferId)
    (hres : (publish env cy p future responseDeadline res).2 < 0) :
    ((publish env cy p future responseDeadline res).1.topics p).futuresByTransferId =
        (cy.topics p).futuresByTransferId ∧
      (publish env cy p future responseDeadline res).1.futuresByDeadline =
        cy.futuresByDeadline := by
  cases future with
  | none => simp [publish]
  | some f =>
    have hp : f ∉ ((cy.modifyTopic p fun t ↦ { t with publishing := true }).topics
        p).futuresByTransferId := by simpa using hf f rfl
    simp only [publish] at hres ⊢
    split_ifs at hres ⊢ with hr h0
    · simp [Node.setFuture]
    · exact absurd h0 (not_le.2 hres)
    · simpa [Node.setFuture] using Index.erase_findOrInsert hp

end Counter

/-! ## Registration -/

section Registration

variable {env : Env} {cy : Node} {p : Nat} {responseDeadline res : Int}

/-- **An accepted publication registers its future.** When no future in the topic's index holds
the masked transfer-ID of the publication, the future is not in that index yet and the transport
accepts, `cy_publish` returns the transport's result, and the future is pending on the topic with
that masked transfer-ID and the response deadline, in both indices. -/
theorem publish_registers {f : Nat}
    (hfree : ∀ g ∈ (cy.topics p).futuresByTransferId,
      (cy.futures g).transferIdMasked ≠ (cy.topics p).pubTransferId &&& env.transferIdMask)
    (hf : f ∉ (cy.topics p).futuresByTransferId) (hres : 0 ≤ res) :
    (publish env cy p (some f) responseDeadline res).2 = res ∧
      (publish env cy p (some f) responseDeadline res).1.futures f =
        pendingFuture env cy p responseDeadline ∧
      f ∈ ((publish env cy p (some f) responseDeadline res).1.topics p).futuresByTransferId ∧
      f ∈ (publish env cy p (some f) responseDeadline res).1.futuresByDeadline := by
  simp only [publish]
  set cy1 := cy.modifyTopic p fun t ↦ { t with publishing := true }
  set cy2 := cy1.setFuture f (pendingFuture env cy1 p responseDeadline)
  have hpend : pendingFuture env cy1 p responseDeadline =
      pendingFuture env cy p responseDeadline := by
    simp [cy1, pendingFuture]
  -- the masked transfer-ID is free: the search inserts the future
  have hnone : Index.find (Index.keyCmp cy2.transferIdOf (cy2.transferIdOf f))
      (cy2.topics p).futuresByTransferId = none := by
    cases h : Index.find (Index.keyCmp cy2.transferIdOf (cy2.transferIdOf f))
      (cy2.topics p).futuresByTransferId with
    | none => rfl
    | some g =>
      have hg : g ∈ (cy.topics p).futuresByTransferId := by
        simpa [cy2, cy1] using Index.find_mem h
      have hgf : g ≠ f := fun e ↦ hf (e ▸ hg)
      refine absurd (BitVec.eq_of_toNat_eq ?_) (hfree g hg)
      simpa [cy2, cy1, hpend, Node.transferIdOf, hgf, pendingFuture] using
        Index.keyCmp_eq_eq.1 (Index.find_cmp h)
  obtain ⟨h1, h2⟩ := Index.findOrInsert_of_find_none (n := f) hnone
  rw [if_neg (not_not.2 h1), if_pos hres]
  refine ⟨rfl, by simp [cy2, hpend], by simpa using h2.mem_iff.2 (List.mem_cons_self _ _), ?_⟩
  exact (Index.findOrInsert_stableCmp _ f _).2.mem_iff.2 (List.mem_cons_self _ _)

end Registration

/-- `canNode` after a publication on its topic `0` with the future `0`, accepted by the
transport, and `n` more without a future. -/
def publishRun : Nat → Node
  | 0 => (publish Env.can canNode 0 (some 0) 1000 0).1
  | n + 1 => (publish Env.can (publishRun n) 0 none 0 0).1

theorem publishRun_topicsByHash : ∀ n, (publishRun n).topicsByHash = canNode.topicsByHash
  | 0 => publish_topicsByHash
  | n + 1 => publish_topicsByHash.trans (publishRun_topicsByHash n)

theorem publishRun_reachable : ∀ n, Reachable Env.can (publishRun n)
  | 0 => canNode_reachable.step (.publish (by decide) fun _ hg ↦ Option.mem_some_iff.1 hg ▸
      (by decide : 0 ∉ canNode.futuresByDeadline ∧
        ∀ q ∈ canNode.topicsByHash, 0 ∉ (canNode.topics q).futuresByTransferId))
  | n + 1 => (publishRun_reachable n).step
      (.publish (by rw [publishRun_topicsByHash]; decide) fun _ hg ↦ by cases hg)

/-- After `32` publications the masked transfer-ID of the pending future `0` comes round on
Cyphal/CAN: publishing with the new future `1` fails with `-12345` and leaves the topic's
transfer-ID where it was, and so does the next attempt, with the future `2`. -/
theorem publish_taken_stalls :
    Reachable Env.can (publishRun 31) ∧
      (1 ∉ (publishRun 31).futuresByDeadline ∧
        ∀ q ∈ (publishRun 31).topicsByHash, 1 ∉ ((publishRun 31).topics q).futuresByTransferId) ∧
      (publish Env.can (publishRun 31) 0 (some 1) 1000 0).2 = -12345 ∧
      ((publish Env.can (publishRun 31) 0 (some 1) 1000 0).1.topics 0).pubTransferId =
        ((publishRun 31).topics 0).pubTransferId ∧
      (publish Env.can (publish Env.can (publishRun 31) 0 (some 1) 1000 0).1 0 (some 2) 1000
        0).2 = -12345 :=
  ⟨publishRun_reachable 31, by decide, by decide, by decide, by decide⟩

end Cy
