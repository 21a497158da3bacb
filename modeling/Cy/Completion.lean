import Cy.FutureTables
import Cy.Tables
import Cy.Wire
import Cy.Registry

/-!
# How a future completes

A registered future ends in one of two ways: its deadline passes and the sweep of `cy_update`
fails it, or a response arrives and completes it. Both take it out of both indices.

## The deadline sweep

`retire_timed_out_futures` re-reads the minimum of the deadline index after every removal. On
the index of a reachable node, which `FutureTables` says is in non-decreasing deadline order
without repetition, the loop retires the front of the index up to the first deadline that is not
before `now` (`Node.timedOut`), one future after the other (`Node.failFutures`):
`retireTimedOutFutures_spec`. These are exactly the registered futures whose deadline is before
`now`, in deadline order, each once, and the loop returns because each of them is pending and
the fuel of `cy_update`, the size of the index, covers them. Two sweeps, the later at a time no
earlier, end where the later one alone ends (`retireTimedOutFutures_comp`).

## Responses

`cy_respond` puts the topic hash in front of the user's payload. A response whose first fragment
holds the hash is matched by hash and masked transfer-ID and completes the future that its topic
holds under that transfer-ID, with the user's bytes as the last response
(`ingestTopicResponseTransfer_registered`); a response that matches no registered future changes
no future and no index (`ingestTopicResponseTransfer_unmatched`). Whatever the response, in a
reachable node the assertion that the future found is pending holds, and ingestion completes at
most one future (`ingestTopicResponseTransfer_spec`).

## The round trip

A publication that registers its future (`publish_registers`), answered by `cy_respond` on any
node that holds a topic of the same hash, completes that future with the answer's bytes once the
answer is ingested: `publish_respond_roundTrip`.

Both halves hold of every reachable node, where every future of a transfer-ID index is pending
(`respond_completes_pending`). The futures a response can complete are the registered ones:
`cy_publish` registers its future unless it fails (`Cy.Registry`), and a future it leaves
pending after a failure is in neither index.

## A future out of the indices

Once a future has left the indices, completed or timed out, or was never registered, the only
call that changes it is `cy_publish` with it. The sweep and a response finalize only futures of
the indices, and the other calls do not touch the futures (`Step.keepsFuture`). Along every run
that does not publish it again, such a future keeps its object and stays out of the indices, so
no future completes twice (`future_kept_of_run`).
-/

namespace Cy

namespace Node

/-- The futures `retire_timed_out_futures` retires at `now`: the front of the deadline index up
to the first deadline that is not before `now`. -/
def timedOut (cy : Node) (now : Int) : List Nat :=
  cy.futuresByDeadline.takeWhile fun f ↦ cy.deadlineOf f < now

/-- The futures of `l`, in order, each set to `cy_future_failure` and taken out of both
indices. -/
def failFutures (cy : Node) (l : List Nat) : Node :=
  l.foldl (fun c f ↦ c.finalizeFuture f .failure (c.futures f).lastResponse) cy

@[simp] theorem failFutures_nil (cy : Node) : cy.failFutures [] = cy := rfl

@[simp] theorem failFutures_cons (cy : Node) (f : Nat) (l : List Nat) :
    cy.failFutures (f :: l) =
      (cy.finalizeFuture f .failure (cy.futures f).lastResponse).failFutures l := rfl

theorem failFutures_append (cy : Node) (l₁ l₂ : List Nat) :
    cy.failFutures (l₁ ++ l₂) = (cy.failFutures l₁).failFutures l₂ :=
  List.foldl_append _ _ _ _

@[simp] theorem failFutures_deadlineOf (cy : Node) (l : List Nat) :
    (cy.failFutures l).deadlineOf = cy.deadlineOf := by
  induction l generalizing cy with
  | nil => rfl
  | cons f l ih => rw [failFutures_cons, ih, finalizeFuture_deadlineOf]

end Node

/-! ## The deadline sweep -/

namespace FutureTables

variable {cy : Node}

/-- On a sorted deadline index, the front up to the first deadline not before `now` holds every
future whose deadline is before `now`. -/
theorem mem_timedOut (h : FutureTables cy) (now : Int) (f : Nat) :
    f ∈ cy.timedOut now ↔ f ∈ cy.futuresByDeadline ∧ cy.deadlineOf f < now :=
  Index.mem_takeWhile_lt h.deadline_sorted

/-- **The sweep is a run of finalizations.** With enough fuel, `retire_timed_out_futures` fails
the futures of `Node.timedOut`, one after the other, and returns. -/
theorem retireTimedOutFutures_eq {now : Int} :
    ∀ {n : Nat} {cy : Node}, FutureTables cy → cy.futuresByDeadline.length ≤ n →
      Cy.retireTimedOutFutures now n cy = some (cy.failFutures (cy.timedOut now))
  | 0, cy, _, hn => by
    simp [Cy.retireTimedOutFutures, Node.timedOut, List.eq_nil_of_length_eq_zero (Nat.le_zero.1 hn)]
  | n + 1, cy, h, hn => by
    rcases hD : cy.futuresByDeadline with _ | ⟨f, rest⟩
    · simp [Cy.retireTimedOutFutures, Index.min, Node.timedOut, hD]
    simp only [Cy.retireTimedOutFutures, Index.min, hD, List.head?_cons]
    by_cases hlt : (cy.futures f).deadline < now
    · -- the earliest deadline has passed: fail that future and sweep again
      have hpend := h.deadline_pending f (hD ▸ List.mem_cons_self _ _)
      have hD1 : (cy.finalizeFuture f .failure (cy.futures f).lastResponse).futuresByDeadline =
          rest := by simp [hD]
      rw [if_pos hlt, if_neg (not_not.2 hpend),
        retireTimedOutFutures_eq (h.finalizeFuture _ _ _)
          (by rw [hD1]; rw [hD] at hn; simpa using hn)]
      simp only [Node.timedOut, hD, hD1, Node.finalizeFuture_deadlineOf, List.takeWhile_cons,
        show cy.deadlineOf f < now from hlt, decide_True, ↓reduceIte, Node.failFutures_cons]
    · rw [if_neg hlt]
      simp [Node.timedOut, hD, Node.deadlineOf, hlt]

/-- What failing a front `l` of the deadline index does: the invariant holds after it, the rest
of the index is left, the futures of `l` are failed, the others untouched, and each live topic's
transfer-ID index loses exactly the futures of `l`. -/
theorem failFutures_spec :
    ∀ {l r : List Nat} {cy : Node}, FutureTables cy → cy.futuresByDeadline = l ++ r →
      FutureTables (cy.failFutures l) ∧ (cy.failFutures l).futuresByDeadline = r ∧
      (cy.failFutures l).topicsByHash = cy.topicsByHash ∧
      (∀ f, (cy.failFutures l).futures f =
        if f ∈ l then { cy.futures f with state := .failure } else cy.futures f) ∧
      ∀ q ∈ cy.topicsByHash, ∀ g, g ∈ ((cy.failFutures l).topics q).futuresByTransferId ↔
        g ∈ (cy.topics q).futuresByTransferId ∧ g ∉ l
  | [], r, cy, h, hD => ⟨h, hD, rfl, fun _ ↦ by simp, fun _ _ _ ↦ by simp⟩
  | f :: l, r, cy, h, hD => by
    set c := cy.finalizeFuture f .failure (cy.futures f).lastResponse
    have hfl : f ∉ l := by
      have := h.deadline_nodup
      rw [hD] at this
      exact fun hf ↦ (List.nodup_cons.1 this).1 (by simp [hf])
    obtain ⟨h1, h2, h3, h4, h5⟩ := failFutures_spec (l := l) (r := r) (h.finalizeFuture f _ _)
      (by simp [c, hD])
    refine ⟨h1, h2, h3, fun g ↦ ?_, fun q hq g ↦ ?_⟩
    · rw [Node.failFutures_cons, h4]
      by_cases hg : g = f
      · subst hg; simp [c, Node.finalizeFuture_futures, hfl]
      · simp [c, Node.finalizeFuture_futures, hg]
    · rw [Node.failFutures_cons, h5 q hq, h.mem_transfer_finalizeFuture hq, List.mem_cons]
      tauto

end FutureTables

/-- **The deadline sweep of `cy_update`.** From every reachable node and at every time `now`,
`retire_timed_out_futures` returns, and it fails exactly the registered futures whose deadline is
before `now`: those of `Node.timedOut`, in the order of the deadline index (non-decreasing
deadlines, each future once), are one after the other set to `cy_future_failure` and taken out of
both indices, their callbacks running in that order. Every other future object is left as it
was, and every registered future whose deadline is not before `now` stays registered and
pending. -/
theorem retireTimedOutFutures_spec {env : Env} {cy : Node} (hr : Reachable env cy) (now : Int) :
    ∃ cy', retireTimedOutFutures now cy.futuresByDeadline.length cy = some cy' ∧
      cy' = cy.failFutures (cy.timedOut now) ∧
      (∀ f, f ∈ cy.timedOut now ↔ f ∈ cy.futuresByDeadline ∧ cy.deadlineOf f < now) ∧
      (cy.timedOut now).Nodup ∧ Index.Sorted (· ≤ ·) cy.deadlineOf (cy.timedOut now) ∧
      (∀ f ∈ cy.timedOut now, (cy'.futures f).state = .failure ∧ f ∉ cy'.futuresByDeadline ∧
        ∀ q ∈ cy'.topicsByHash, f ∉ (cy'.topics q).futuresByTransferId) ∧
      (∀ f ∉ cy.timedOut now, cy'.futures f = cy.futures f) ∧
      ∀ f ∈ cy.futuresByDeadline, now ≤ cy.deadlineOf f →
        f ∈ cy'.futuresByDeadline ∧ f ∈ (cy'.topics (cy'.futures f).topic).futuresByTransferId ∧
          (cy'.futures f).state = .pending := by
  have h := futureTables_of_reachable hr
  have hsplit : cy.futuresByDeadline = cy.timedOut now ++
      cy.futuresByDeadline.dropWhile fun f ↦ decide (cy.deadlineOf f < now) :=
    (List.takeWhile_append_dropWhile _ _).symm
  obtain ⟨h1, h2, h3, h4, h5⟩ := h.failFutures_spec hsplit
  have hnd := hsplit ▸ h.deadline_nodup
  refine ⟨_, h.retireTimedOutFutures_eq le_rfl, rfl, h.mem_timedOut now,
    ((List.takeWhile_sublist _).nodup h.deadline_nodup),
    h.deadline_sorted.sublist (List.takeWhile_sublist _), fun f hf ↦ ⟨?_, ?_, ?_⟩,
    fun f hf ↦ by rw [h4, if_neg hf], fun f hf hle ↦ ?_⟩
  · rw [h4, if_pos hf]
  · rw [h2]; exact List.disjoint_of_nodup_append hnd hf
  · intro q hq hfq
    exact ((h5 q (h3 ▸ hq) f).1 hfq).2 hf
  · -- a deadline not before `now` is in the rest of the index, which stays registered
    have hf' : f ∈ cy.futuresByDeadline.dropWhile fun f ↦ decide (cy.deadlineOf f < now) := by
      have := hsplit ▸ hf
      rcases List.mem_append.1 this with hin | hin
      · exact absurd ((h.mem_timedOut now f).1 hin).2 (not_lt.2 hle)
      · exact hin
    rw [← h2] at hf'
    exact ⟨hf', (h1.deadline_topic f hf').2, h1.deadline_pending f hf'⟩

/-- On `publishRun 0` the future `0` is registered with the deadline `1000`: the sweep at `2000`
fails it. -/
theorem retireTimedOutFutures_spec_publishRun :
    Reachable Env.can (publishRun 0) ∧ (publishRun 0).timedOut 2000 = [0] ∧
      ∃ cy', retireTimedOutFutures 2000 (publishRun 0).futuresByDeadline.length (publishRun 0) =
        some cy' ∧ (cy'.futures 0).state = .failure := by
  obtain ⟨cy', h1, -, -, -, -, hfail, -⟩ :=
    retireTimedOutFutures_spec (publishRun_reachable 0) 2000
  have ht : (publishRun 0).timedOut 2000 = [0] := by decide
  exact ⟨publishRun_reachable 0, ht, cy', h1, (hfail 0 (ht ▸ List.mem_singleton_self 0)).1⟩

/-- **Sweeps compose.** From every reachable node, the deadline sweep at `t₁` followed by the
sweep at any `t₂ ≥ t₁` ends in the node the sweep at `t₂` alone ends in: the first sweep fails
a front of the futures the second would have failed, in the same order. With `t₁ = t₂`, sweeping
twice at one time is sweeping once. -/
theorem retireTimedOutFutures_comp {env : Env} {cy : Node} (hr : Reachable env cy) {t₁ t₂ : Int}
    (h12 : t₁ ≤ t₂) :
    ∃ c, retireTimedOutFutures t₁ cy.futuresByDeadline.length cy = some c ∧
      retireTimedOutFutures t₂ c.futuresByDeadline.length c =
        retireTimedOutFutures t₂ cy.futuresByDeadline.length cy := by
  have h := futureTables_of_reachable hr
  have hsplit : cy.futuresByDeadline = cy.timedOut t₁ ++
      cy.futuresByDeadline.dropWhile fun f ↦ decide (cy.deadlineOf f < t₁) :=
    (List.takeWhile_append_dropWhile _ _).symm
  obtain ⟨h1, h2, -⟩ := h.failFutures_spec hsplit
  -- what is left due at `t₂` after the sweep at `t₁` is the rest of the front due at `t₂`
  have hrest :
      cy.timedOut t₂ = cy.timedOut t₁ ++ (cy.failFutures (cy.timedOut t₁)).timedOut t₂ := by
    rw [Node.timedOut.eq_1 (cy.failFutures _), h2, Node.failFutures_deadlineOf]
    exact Index.takeWhile_lt_of_le h12 _
  refine ⟨_, h.retireTimedOutFutures_eq le_rfl, ?_⟩
  rw [h1.retireTimedOutFutures_eq le_rfl, h.retireTimedOutFutures_eq le_rfl, hrest,
    Node.failFutures_append]

/-- On `publishRun 0`, the sweep at `500` (which fails nothing) and then the one at `2000` end
where the sweep at `2000` alone does. -/
theorem retireTimedOutFutures_comp_publishRun :
    ∃ c, retireTimedOutFutures 500 (publishRun 0).futuresByDeadline.length (publishRun 0) =
        some c ∧ retireTimedOutFutures 2000 c.futuresByDeadline.length c =
          retireTimedOutFutures 2000 (publishRun 0).futuresByDeadline.length (publishRun 0) :=
  retireTimedOutFutures_comp (publishRun_reachable 0) (by decide)

/-! ## Responses -/

/-- The bytes of a response transfer whose first fragment holds at least the 8 bytes that
`cy_respond` puts in front of the payload: the first 8 bytes are the hash, the rest is the
payload. -/
theorem respond_bytes {cy : Node} {p : Nat} {payload : List (List (BitVec 8))}
    {head : List (BitVec 8)} {tail : List (List (BitVec 8))}
    (hbytes : (head :: tail).flatten = (respond cy p payload).flatten) (h8 : 8 ≤ head.length) :
    head.take 8 = leBytes 8 (cy.topics p).hash.toNat ∧
      head.drop 8 ++ tail.flatten = payload.flatten := by
  simp only [respond, List.flatten_cons] at hbytes
  have hlen : (leBytes 8 (cy.topics p).hash.toNat).length = 8 := length_leBytes _ _
  constructor
  · have := congrArg (List.take 8) hbytes
    rwa [List.take_append_of_le_length h8, List.take_append_of_le_length hlen.ge,
      List.take_of_length_le hlen.le] at this
  · have := congrArg (List.drop 8) hbytes
    rwa [List.drop_append_of_le_length h8, List.drop_append_of_le_length hlen.ge,
      List.drop_of_length_le hlen.le, List.nil_append] at this

/-- **A response completes the future registered under its transfer-ID.** In every reachable
node, take a future `f` in the transfer-ID index of a live topic `p` and a response whose bytes
are those `cy_respond` emits for `p` and a payload, whose first fragment holds the 8 bytes of the
hash, and whose masked transfer-ID is that of `f`. Ingesting it returns; `f` is completed, with
exactly the payload's bytes in its last response, and leaves both indices; every other future
keeps its object and its place in both indices. -/
theorem ingestTopicResponseTransfer_registered {env : Env} {cy : Node} (hr : Reachable env cy)
    {p f : Nat} (hp : p ∈ cy.topicsByHash) (hf : f ∈ (cy.topics p).futuresByTransferId)
    (payload : List (List (BitVec 8))) {tr : Transfer}
    (hbytes : tr.payload.flatten = (respond cy p payload).flatten)
    (h8 : 8 ≤ (tr.payload.headD []).length)
    (hid : tr.transferId &&& env.transferIdMask = (cy.futures f).transferIdMasked)
    (r : BitVec 64) :
    ∃ cy', ingestTopicResponseTransfer env cy tr r = some cy' ∧
      (cy'.futures f).state = .success ∧
      (cy'.futures f).lastResponse.map (·.payload.flatten) = some payload.flatten ∧
      f ∉ cy'.futuresByDeadline ∧ (∀ q ∈ cy'.topicsByHash, f ∉ (cy'.topics q).futuresByTransferId) ∧
      ∀ g ≠ f, cy'.futures g = cy.futures g ∧
        (g ∈ cy'.futuresByDeadline ↔ g ∈ cy.futuresByDeadline) ∧
        ∀ q ∈ cy.topicsByHash,
          (g ∈ (cy'.topics q).futuresByTransferId ↔ g ∈ (cy.topics q).futuresByTransferId) := by
  have ht := TopicTables.of_reachable hr
  have hft := futureTables_of_reachable hr
  have hc1 : FutureTables (markNeighbor env.nodeIdMax cy tr.remoteNodeId r) := hft.of_futureView rfl
  obtain ⟨head, tail, htr⟩ : ∃ head tail, tr.payload = head :: tail := by
    rcases h : tr.payload with _ | ⟨head, tail⟩
    · rw [h] at h8; simp at h8
    · exact ⟨head, tail, rfl⟩
  rw [htr, List.headD_cons] at h8
  obtain ⟨hhead, hrest⟩ := respond_bytes (htr ▸ hbytes) h8
  -- the hash names `p`, and the masked transfer-ID names `f` in its index
  have hfind : (markNeighbor env.nodeIdMax cy tr.remoteNodeId r).findByHash
      (BitVec.ofNat 64 (leValue (head.take 8))) = some p := by
    rw [hhead, ofNat_leValue_leBytes _ _ (by decide)]
    exact Index.find_keyCmp_of_mem ht.hash_sorted hp rfl
  have hfind2 : Index.find
      (Index.keyCmp (markNeighbor env.nodeIdMax cy tr.remoteNodeId r).transferIdOf
        (tr.transferId &&& env.transferIdMask).toNat) (cy.topics p).futuresByTransferId = some f :=
    Index.find_keyCmp_of_mem (hft.transfer_sorted p hp) hf (by rw [hid]; rfl)
  have hpend := hft.deadline_pending f (hft.transfer_mem p hp f hf).2
  refine ⟨(markNeighbor env.nodeIdMax cy tr.remoteNodeId r).finalizeFuture f .success
    (some { tr with payload := head.drop 8 :: tail }), ?_, ?_, ?_, hft.deadline_nodup.not_mem_erase,
    fun q hq h ↦ ((hc1.mem_transfer_finalizeFuture hq f).1 h).2 rfl, fun g hg ↦ ⟨?_, ?_, ?_⟩⟩
  · simp only [ingestTopicResponseTransfer, htr, List.headD_cons, List.tail_cons,
      if_neg (not_lt.2 h8), hfind]
    have hpend' : ((markNeighbor env.nodeIdMax cy tr.remoteNodeId r).futures f).state = .pending :=
      hpend
    rw [show (markNeighbor env.nodeIdMax cy tr.remoteNodeId r).topics p = cy.topics p from rfl,
      hfind2]
    dsimp only
    rw [if_neg (not_not.2 hpend')]
  · simp [Node.finalizeFuture_futures]
  · simp [Node.finalizeFuture_futures, hrest]
  · simp only [Node.finalizeFuture_futures, Function.update_noteq hg]; rfl
  · exact List.mem_erase_of_ne hg
  · intro q hq
    exact (hc1.mem_transfer_finalizeFuture hq g).trans (and_iff_left hg)

/-- **A response that matches no registered future changes no future.** If no future in the
transfer-ID index of a live topic named by the response's first 8 bytes carries its masked
transfer-ID, ingesting it returns and leaves every future object and both indices as they were;
the payload is not kept. -/
theorem ingestTopicResponseTransfer_unmatched {env : Env} {cy : Node} {tr : Transfer}
    (r : BitVec 64)
    (hno : ∀ p ∈ cy.topicsByHash, ∀ f ∈ (cy.topics p).futuresByTransferId,
      ¬(8 ≤ (tr.payload.headD []).length ∧
        (cy.topics p).hash = BitVec.ofNat 64 (leValue ((tr.payload.headD []).take 8)) ∧
        (cy.futures f).transferIdMasked = tr.transferId &&& env.transferIdMask)) :
    ∃ cy', ingestTopicResponseTransfer env cy tr r = some cy' ∧ cy'.futureView = cy.futureView := by
  simp only [ingestTopicResponseTransfer]
  split_ifs with h8
  · exact ⟨_, rfl, rfl⟩
  split
  · exact ⟨_, rfl, rfl⟩
  rename_i p hp
  split
  · exact ⟨_, rfl, rfl⟩
  rename_i f hf
  have hp' : Index.find (Index.keyCmp cy.hashOf
      (BitVec.ofNat 64 (leValue ((tr.payload.headD []).take 8))).toNat) cy.topicsByHash =
        some p := hp
  have hf' : Index.find (Index.keyCmp cy.transferIdOf (tr.transferId &&& env.transferIdMask).toNat)
      (cy.topics p).futuresByTransferId = some f := hf
  have e1 : cy.hashOf p = _ := Index.keyCmp_eq_eq.1 (Index.find_cmp hp')
  have e2 : cy.transferIdOf f = _ := Index.keyCmp_eq_eq.1 (Index.find_cmp hf')
  exact absurd ⟨not_lt.1 h8, BitVec.eq_of_toNat_eq e1, BitVec.eq_of_toNat_eq e2⟩
    (hno p (Index.find_mem hp') f (Index.find_mem hf'))

/-- What ingesting a response does to the futures of a node: the futures of the transfer-ID
index of a live topic are pending, and a response with the bytes `cy_respond` emits for a topic
of that hash completes the one under its masked transfer-ID; a response that matches no future
of the indices changes none. -/
structure ResponseIngest (env : Env) (cy : Node) : Prop where
  /-- A future of the index of `p` is pending, and the response to it completes it with exactly
  the payload's bytes, takes it out of both indices and leaves every other future as it was. -/
  registered : ∀ p ∈ cy.topicsByHash, ∀ f ∈ (cy.topics p).futuresByTransferId,
    (cy.futures f).state = .pending ∧
    ∀ (B : Node) (q : Nat) (payload : List (List (BitVec 8))) (tr : Transfer) (r : BitVec 64),
      (B.topics q).hash = (cy.topics p).hash →
      tr.payload.flatten = (respond B q payload).flatten → 8 ≤ (tr.payload.headD []).length →
      tr.transferId &&& env.transferIdMask = (cy.futures f).transferIdMasked →
      ∃ cy', ingestTopicResponseTransfer env cy tr r = some cy' ∧
        (cy'.futures f).state = .success ∧
        (cy'.futures f).lastResponse.map (·.payload.flatten) = some payload.flatten ∧
        f ∉ cy'.futuresByDeadline ∧
        (∀ q ∈ cy'.topicsByHash, f ∉ (cy'.topics q).futuresByTransferId) ∧
        ∀ g ≠ f, cy'.futures g = cy.futures g ∧
          (g ∈ cy'.futuresByDeadline ↔ g ∈ cy.futuresByDeadline) ∧
          ∀ q ∈ cy.topicsByHash,
            (g ∈ (cy'.topics q).futuresByTransferId ↔ g ∈ (cy.topics q).futuresByTransferId)
  /-- A response that no future of a live topic's index matches changes no future. -/
  unmatched : ∀ (tr : Transfer) (r : BitVec 64),
    (∀ p ∈ cy.topicsByHash, ∀ f ∈ (cy.topics p).futuresByTransferId,
      ¬(8 ≤ (tr.payload.headD []).length ∧
        (cy.topics p).hash = BitVec.ofNat 64 (leValue ((tr.payload.headD []).take 8)) ∧
        (cy.futures f).transferIdMasked = tr.transferId &&& env.transferIdMask)) →
    ∃ cy', ingestTopicResponseTransfer env cy tr r = some cy' ∧ cy'.futureView = cy.futureView

/-- **A response completes the pending future it answers, and only that one.** In every
reachable node, a response to a topic of hash `h` carrying the bytes `cy_respond` emits for a
topic of that hash and a payload, with the 8 hash bytes in its first fragment, completes the
pending future registered under its masked transfer-ID with exactly the payload's bytes, takes it
out of both indices and changes no other future; a response that matches no registered future
changes no future. -/
theorem respond_completes_pending {env : Env} {cy : Node} (hr : Reachable env cy) :
    ResponseIngest env cy where
  registered p hp f hf := by
    have hft := futureTables_of_reachable hr
    refine ⟨hft.deadline_pending f (hft.transfer_mem p hp f hf).2,
      fun B q payload tr r hq hbytes h8 hid ↦ ?_⟩
    have hresp : respond B q payload = respond cy p payload := by rw [respond, respond, hq]
    exact ingestTopicResponseTransfer_registered hr hp hf payload (hresp ▸ hbytes) h8 hid r
  unmatched tr r hno := ingestTopicResponseTransfer_unmatched r hno

theorem respond_completes_pending_canNode : ResponseIngest Env.can canNode :=
  respond_completes_pending canNode_reachable

/-- **Response ingestion never trips its assertion, and completes at most one future.** In every
reachable node, ingesting any transfer on the response service returns. Either no future object
and no index changes, or exactly one future `f` is completed: it sits in the transfer-ID index of
a live topic `p` whose hash is the first 8 bytes of the response, under the response's masked
transfer-ID. Then `f` takes `cy_future_success` with the response, whose first fragment loses
the 8 hash bytes, as its last response, and leaves both indices; every other future keeps its
object and its place in both indices. -/
theorem ingestTopicResponseTransfer_spec {env : Env} {cy : Node} (hr : Reachable env cy)
    (tr : Transfer) (r : BitVec 64) :
    ∃ cy', ingestTopicResponseTransfer env cy tr r = some cy' ∧
      (cy'.futureView = cy.futureView ∨
        ∃ p ∈ cy.topicsByHash, ∃ f ∈ (cy.topics p).futuresByTransferId,
          8 ≤ (tr.payload.headD []).length ∧
          (cy.topics p).hash = BitVec.ofNat 64 (leValue ((tr.payload.headD []).take 8)) ∧
          (cy.futures f).transferIdMasked = tr.transferId &&& env.transferIdMask ∧
          cy'.futures f = { cy.futures f with
            state := .success
            lastResponse := some
              { tr with payload := (tr.payload.headD []).drop 8 :: tr.payload.tail } } ∧
          cy'.futuresByDeadline = cy.futuresByDeadline.erase f ∧
          (∀ q ∈ cy.topicsByHash, ∀ g, g ∈ (cy'.topics q).futuresByTransferId ↔
            g ∈ (cy.topics q).futuresByTransferId ∧ g ≠ f) ∧
          ∀ g ≠ f, cy'.futures g = cy.futures g) := by
  have hft := futureTables_of_reachable hr
  have hc1 : FutureTables (markNeighbor env.nodeIdMax cy tr.remoteNodeId r) := hft.of_futureView rfl
  simp only [ingestTopicResponseTransfer]
  split_ifs with h8
  · exact ⟨_, rfl, .inl rfl⟩
  split
  · exact ⟨_, rfl, .inl rfl⟩
  rename_i p hp
  split
  · exact ⟨_, rfl, .inl rfl⟩
  rename_i f hf
  have hp' : Index.find (Index.keyCmp cy.hashOf
      (BitVec.ofNat 64 (leValue ((tr.payload.headD []).take 8))).toNat) cy.topicsByHash =
        some p := hp
  have hf' : Index.find (Index.keyCmp cy.transferIdOf (tr.transferId &&& env.transferIdMask).toNat)
      (cy.topics p).futuresByTransferId = some f := hf
  have e1 : cy.hashOf p = _ := Index.keyCmp_eq_eq.1 (Index.find_cmp hp')
  have e2 : cy.transferIdOf f = _ := Index.keyCmp_eq_eq.1 (Index.find_cmp hf')
  have hpl := Index.find_mem hp'
  have hfl := Index.find_mem hf'
  -- the future found is registered, hence pending: the assertion holds
  have hpend : (cy.futures f).state = .pending :=
    hft.deadline_pending f (hft.transfer_mem p hpl f hfl).2
  refine ⟨_, if_neg (not_not.2 hpend), .inr ⟨p, hpl, f, hfl, not_lt.1 h8,
    BitVec.eq_of_toNat_eq e1, BitVec.eq_of_toNat_eq e2, ?_, rfl,
    fun q hq g ↦ hc1.mem_transfer_finalizeFuture hq g, fun g hg ↦ ?_⟩⟩
  · simp only [Node.finalizeFuture_futures, Function.update_same]; rfl
  · simp only [Node.finalizeFuture_futures, Function.update_noteq hg]; rfl

/-- On `publishRun 0`, the answer to the heartbeat topic `0` with the payload `[7]` and the
transfer-ID `0` is ingested without tripping the assertion. -/
theorem ingestTopicResponseTransfer_spec_publishRun :
    Reachable Env.can (publishRun 0) ∧ (ingestTopicResponseTransfer Env.can (publishRun 0)
      ⟨200, 9, 0, respond (publishRun 0) 0 [[7]]⟩ 0).isSome := by
  obtain ⟨cy', h, -⟩ := ingestTopicResponseTransfer_spec (publishRun_reachable 0)
    ⟨200, 9, 0, respond (publishRun 0) 0 [[7]]⟩ 0
  exact ⟨publishRun_reachable 0, by rw [h]; rfl⟩

/-- **Publish, respond, ingest: the round trip of a request.** From every reachable node, take a
publication on a live topic `p` with a future `f` that no index holds, whose masked transfer-ID
no future of the topic holds, and which the transport accepts. Let any node `B` answer it with
`cy_respond` on a topic `q` of the same hash, under a transfer-ID with the publication's masked
bits, the hash whole in the first fragment. Ingesting that answer on the publisher completes
`f`, with exactly the bytes `B` gave as its last response, and takes it out of both indices. -/
theorem publish_respond_roundTrip {env : Env} {cy : Node} (hr : Reachable env cy) {p f : Nat}
    (hp : p ∈ cy.topicsByHash)
    (hf : f ∉ cy.futuresByDeadline ∧ ∀ q ∈ cy.topicsByHash, f ∉ (cy.topics q).futuresByTransferId)
    (hfree : ∀ g ∈ (cy.topics p).futuresByTransferId,
      (cy.futures g).transferIdMasked ≠ (cy.topics p).pubTransferId &&& env.transferIdMask)
    {responseDeadline res : Int} (hres : 0 ≤ res)
    {B : Node} {q : Nat} (hq : (B.topics q).hash = (cy.topics p).hash)
    (payload : List (List (BitVec 8))) {tr : Transfer}
    (hbytes : tr.payload.flatten = (respond B q payload).flatten)
    (h8 : 8 ≤ (tr.payload.headD []).length)
    (hid : tr.transferId &&& env.transferIdMask =
      (cy.topics p).pubTransferId &&& env.transferIdMask)
    (r : BitVec 64) :
    (publish env cy p (some f) responseDeadline res).2 = res ∧
      ∃ cy', ingestTopicResponseTransfer env (publish env cy p (some f) responseDeadline res).1
          tr r = some cy' ∧
        (cy'.futures f).state = .success ∧
        (cy'.futures f).lastResponse.map (·.payload.flatten) = some payload.flatten ∧
        f ∉ cy'.futuresByDeadline ∧
        ∀ q ∈ cy'.topicsByHash, f ∉ (cy'.topics q).futuresByTransferId := by
  set c := (publish env cy p (some f) responseDeadline res).1
  have hc : Reachable env c := hr.step (.publish hp fun _ hg ↦ Option.mem_some_iff.1 hg ▸ hf)
  obtain ⟨hres', hfut, hfc, -⟩ := publish_registers hfree (hf.2 p hp) hres
  -- the answer carries the hash of the publisher's topic
  have hhash : (c.topics p).hash = (cy.topics p).hash :=
    congrArg (fun t ↦ (t.2 p).1) Node.tables_publish
  have hresp : respond B q payload = respond c p payload := by rw [respond, respond, hhash, hq]
  obtain ⟨cy', h1, h2, h3, h4, h5, -⟩ := ingestTopicResponseTransfer_registered hc
    (by rw [publish_topicsByHash]; exact hp) hfc payload (hresp ▸ hbytes) h8
    (by rw [hfut, hid]; rfl) r
  exact ⟨hres', cy', h1, h2, h3, h4, h5⟩

/-- `canNode` publishes on its topic `0` with the future `0`; the answer of `canNode` itself,
with the payload `[7]` and the transfer-ID `0`, completes that future. -/
theorem publish_respond_roundTrip_canNode :
    ((ingestTopicResponseTransfer Env.can (publish Env.can canNode 0 (some 0) 1000 0).1
      ⟨200, 9, 0, respond canNode 0 [[7]]⟩ 0).map fun c ↦ (c.futures 0).state) =
        some .success := by
  obtain ⟨-, cy', h, hs, -⟩ := @publish_respond_roundTrip Env.can canNode canNode_reachable 0 0
    (by decide) (by decide) (by decide) 1000 0 le_rfl canNode 0 rfl [[7]]
    ⟨200, 9, 0, respond canNode 0 [[7]]⟩ rfl (by decide) (by decide) 0
  rw [h, Option.map_some', hs]

/-! ## A future out of the indices -/


namespace Node

/-- A call keeps the future `f` as it was and out of the deadline index. -/
def KeepsFuture (f : Nat) (cy cy' : Node) : Prop :=
  cy'.futures f = cy.futures f ∧ f ∉ cy'.futuresByDeadline

variable {f : Nat} {cy cy' : Node}

theorem keepsFuture_of_futureView (he : cy'.futureView = cy.futureView)
    (hf : f ∉ cy.futuresByDeadline) : KeepsFuture f cy cy' :=
  ⟨congrFun (congrArg (·.2.2.1) he) f, futuresByDeadline_eq_of_futureView he ▸ hf⟩

theorem KeepsFuture.trans {cy'' : Node} (h₁ : KeepsFuture f cy cy') (h₂ : KeepsFuture f cy' cy'') :
    KeepsFuture f cy cy'' :=
  ⟨h₂.1.trans h₁.1, h₂.2⟩

/-- Finalizing another future, one that the deadline index holds. -/
theorem keepsFuture_finalizeFuture {g : Nat} {st : FutureState} {lr : Option Transfer}
    (hg : g ∈ cy.futuresByDeadline) (hf : f ∉ cy.futuresByDeadline) :
    KeepsFuture f cy (cy.finalizeFuture g st lr) :=
  ⟨by rw [finalizeFuture_futures, Function.update_noteq (ne_of_mem_of_not_mem hg hf).symm],
    fun h ↦ hf (List.mem_of_mem_erase h)⟩

end Node

open Node

variable {f : Nat}

/-- The sweep finalizes only futures of the deadline index. -/
theorem retireTimedOutFutures_keepsFuture {now : Int} :
    ∀ {n : Nat} {cy cy' : Node}, retireTimedOutFutures now n cy = some cy' →
      f ∉ cy.futuresByDeadline → KeepsFuture f cy cy'
  | 0, _, _, h, hf => by cases h; exact ⟨rfl, hf⟩
  | n + 1, cy, cy', h, hf => by
    simp only [retireTimedOutFutures] at h
    split at h
    · cases h; exact ⟨rfl, hf⟩
    · rename_i g hg
      split_ifs at h
      · have hgD : g ∈ cy.futuresByDeadline := List.mem_of_mem_head? hg
        have k : KeepsFuture f cy (cy.finalizeFuture g .failure (cy.futures g).lastResponse) :=
          keepsFuture_finalizeFuture hgD hf
        exact k.trans (retireTimedOutFutures_keepsFuture h k.2)
      · cases h; exact ⟨rfl, hf⟩

/-- A response finalizes a future of a live topic's transfer-ID index, which the deadline index
holds. -/
theorem ingestTopicResponseTransfer_keepsFuture {env : Env} {cy cy' : Node} (h : FutureTables cy)
    {tr : Transfer} {r : BitVec 64} (hi : ingestTopicResponseTransfer env cy tr r = some cy')
    (hf : f ∉ cy.futuresByDeadline) : KeepsFuture f cy cy' := by
  have k1 : KeepsFuture f cy (markNeighbor env.nodeIdMax cy tr.remoteNodeId r) := ⟨rfl, hf⟩
  simp only [ingestTopicResponseTransfer] at hi
  split_ifs at hi
  · cases hi; exact k1
  split at hi
  · cases hi; exact k1
  rename_i p hp
  split at hi
  · cases hi; exact k1
  rename_i g hg
  split_ifs at hi
  cases hi
  have hp' : p ∈ cy.topicsByHash := Index.find_mem hp
  have hg' : g ∈ (cy.topics p).futuresByTransferId := Index.find_mem hg
  exact k1.trans (keepsFuture_finalizeFuture (h.transfer_mem p hp' g hg').2 hf)

theorem Node.mem_insertDeadline {cy : Node} {g x : Nat} {dl : Int} :
    x ∈ (cy.insertDeadline g dl).futuresByDeadline ↔ x = g ∨ x ∈ cy.futuresByDeadline :=
  (Index.findOrInsert_stableCmp _ _ _).2.mem_iff.trans List.mem_cons

/-- A publication adds to the deadline index at most its own future. -/
theorem mem_publish_futuresByDeadline {env : Env} {cy : Node} {p : Nat} {future : Option Nat}
    {responseDeadline res : Int} {x : Nat}
    (hx : x ∈ (publish env cy p future responseDeadline res).1.futuresByDeadline) :
    x ∈ future ∨ x ∈ cy.futuresByDeadline := by
  cases future with
  | none => exact .inr hx
  | some g =>
    unfold publish at hx
    dsimp only at hx
    split_ifs at hx <;> simp only [modifyTopic_futuresByDeadline, setFuture_futuresByDeadline,
      Node.mem_insertDeadline] at hx
    · exact .inr hx
    · rcases hx with rfl | hx
      exacts [.inl rfl, .inr hx]
    · exact .inr hx

theorem publish_futures_of_ne {env : Env} {cy : Node} {p : Nat} {future : Option Nat}
    {responseDeadline res : Int} (hf : future ≠ some f) :
    (publish env cy p future responseDeadline res).1.futures f = cy.futures f := by
  cases future with
  | none => rfl
  | some g =>
    have hg : f ≠ g := fun e ↦ hf (e ▸ rfl)
    simp only [publish]
    split_ifs <;> simp only [modifyTopic_futures, insertDeadline_futures, setFuture_futures,
      Function.update_noteq hg]


theorem keepsFuture_insertTopic {cy cy4 : Node} {p : Nat} {t : Topic}
    (hi : cy.insertTopic p t = some cy4) (hf : f ∉ cy.futuresByDeadline) :
    KeepsFuture f cy cy4 := by
  simp only [Node.insertTopic] at hi
  split_ifs at hi
  cases hi
  exact ⟨rfl, hf⟩

theorem topicNewHint_keepsFuture {env : Env} {subscribeOk : Nat → Bool} {cy cy' : Node} {p : Nat}
    {name : List Char} {hint : Nat} {now : Int} {r : BitVec 64} {created : Bool}
    (ht : topicNewHint env subscribeOk cy p name hint now r = some (cy', created))
    (hf : f ∉ cy.futuresByDeadline) : KeepsFuture f cy cy' := by
  rcases topicNewHint_cases ht with
    ⟨rfl, -⟩ | ⟨-, rfl, -⟩ | ⟨cy1, t1, cy4, c, hc1, -, hi, ha, rfl, -⟩
  · exact ⟨rfl, hf⟩
  · exact ⟨rfl, hf⟩
  · have k1 : KeepsFuture f cy cy1 := by rcases hc1 with rfl | rfl <;> exact ⟨rfl, hf⟩
    have k4 := k1.trans (keepsFuture_insertTopic hi k1.2)
    have k := k4.trans (keepsFuture_of_futureView (futureView_allocateTopic ha) k4.2)
    exact ⟨k.1, k.2⟩

theorem update_keepsFuture {env : Env} {cy cy' : Node} {now : Int} {r₁ r₂ r₃ : BitVec 64}
    {setRes pubRes res : Int} {calls : List Call}
    (hu : update env cy now r₁ r₂ r₃ setRes pubRes = some (cy', res, calls))
    (hf : f ∉ cy.futuresByDeadline) : KeepsFuture f cy cy' := by
  obtain ⟨cy1, cy2, calls2, h1, h2, hrest⟩ := update_cases hu
  have k2 : KeepsFuture f cy cy2 := by
    have k1 := retireTimedOutFutures_keepsFuture h1 hf
    have k := keepsFuture_of_futureView (futureView_processCollision env cy1 now) k1.2
    rw [h2] at k
    exact k1.trans k
  rcases hrest with ⟨-, rfl, -, -⟩ | ⟨-, cy3, res3, calls3, hpick, -, hrest⟩
  · exact k2
  have k3 : KeepsFuture f cy cy3 := by
    rcases hpick with ⟨-, n, b, -, rfl, -, -⟩ | ⟨-, rfl, -, -⟩ <;> exact k2
  rcases hrest with ⟨-, rfl, -, -⟩ | ⟨-, p, cy4, bytes, -, h4, -, rfl, -, -⟩
  · exact k3
  · have k := k3.trans (keepsFuture_of_futureView (futureView_publishHeartbeat h4) k3.2)
    exact ⟨k.1, k.2⟩

/-- **What a call does to a future that no index holds.** Only `cy_publish` with that future
changes it; every other call keeps it as it was, out of the indices. -/
theorem Step.keepsFuture {env : Env} {cy cy' : Node} {calls : List Call} (h : FutureTables cy)
    (hs : Step env cy calls cy') (hf : f ∉ cy.futuresByDeadline) :
    KeepsFuture f cy cy' ∨ ∃ p d res, cy' = (Cy.publish env cy p (some f) d res).1 := by
  cases hs with
  | topicNewHint _ ht => exact .inl (topicNewHint_keepsFuture ht hf)
  | ingestTopicTransfer _ hi =>
    exact .inl (keepsFuture_of_futureView (futureView_ingestTopicTransfer hi) hf)
  | ingestTopicResponseTransfer hi => exact .inl (ingestTopicResponseTransfer_keepsFuture h hi hf)
  | update hu => exact .inl (update_keepsFuture hu hf)
  | @publish p future d res _ _ =>
    by_cases hfu : future = some f
    · subst hfu; exact .inr ⟨p, d, res, rfl⟩
    · exact .inl ⟨publish_futures_of_ne hfu,
        fun hx ↦ (mem_publish_futuresByDeadline hx).elim (fun h' ↦ hfu (Option.mem_def.1 h')) hf⟩
  | respond => exact .inl ⟨rfl, hf⟩
  | subscribe _ _ hs =>
    exact .inl (keepsFuture_of_futureView (futureView_subscribeWithTransferIdTimeout hs) hf)
  | notifyDiscriminatorCollision _ =>
    exact .inl (keepsFuture_of_futureView (Node.futureView_notifyDiscriminatorCollision _ _) hf)
  | notifyNodeIdCollision => exact .inl ⟨rfl, hf⟩

/-- **Nothing but `cy_publish` touches a future out of the indices.** From a reachable node,
take a future that the deadline index does not hold: one that completed, timed out, or was left
behind by a publication. Along every run of API calls none of which is `cy_publish` with that
future, the future object stays as it was and out of the deadline index: no late response and no
deadline sweep completes it a second time. -/
theorem future_kept_of_run {env : Env} {cy cy' : Node} (hr : Reachable env cy)
    (hf : f ∉ cy.futuresByDeadline)
    (h : Relation.ReflTransGen (fun a b ↦ (∃ calls, Step env a calls b) ∧
      ∀ p d res, b ≠ (publish env a p (some f) d res).1) cy cy') :
    cy'.futures f = cy.futures f ∧ f ∉ cy'.futuresByDeadline := by
  suffices Reachable env cy' ∧ KeepsFuture f cy cy' from this.2
  induction h with
  | refl => exact ⟨hr, rfl, hf⟩
  | tail _ hs ih =>
    obtain ⟨⟨calls, hs⟩, hno⟩ := hs
    obtain ⟨hr', k⟩ := ih
    refine ⟨hr'.step hs, ?_⟩
    rcases Step.keepsFuture (futureTables_of_reachable hr') hs k.2 with k' | ⟨p, d, res, e⟩
    · exact k.trans k'
    · exact absurd e (hno p d res)

theorem publish_nodeIdCollision {env : Env} {cy : Node} {p : Nat} {future : Option Nat}
    {responseDeadline res : Int} :
    (publish env cy p future responseDeadline res).1.nodeIdCollision = cy.nodeIdCollision := by
  cases future with
  | none => rfl
  | some g =>
    simp only [publish]
    split_ifs <;> simp only [Node.modifyTopic_nodeIdCollision, Node.setFuture, Node.insertDeadline]

/-- On `canNode`, which holds no future, a node-ID collision notice leaves the future `0`. -/
theorem future_kept_canNode :
    (notifyNodeIdCollision canNode).futures 0 = canNode.futures 0 ∧
      0 ∉ (notifyNodeIdCollision canNode).futuresByDeadline :=
  future_kept_of_run canNode_reachable (by decide) (.single ⟨⟨[], .notifyNodeIdCollision⟩,
    fun p d res e ↦ absurd ((congrArg Node.nodeIdCollision e).trans publish_nodeIdCollision)
      (by decide)⟩)

end Cy
