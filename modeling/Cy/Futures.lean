import Cy.Heartbeat
import Cy.Bloom

/-!
# Response futures

A publication may register a future that waits for responses. The future sits in two indices:
its topic's `futures_by_transfer_id`, keyed by the masked transfer-ID of the publication, and
the node's `futures_by_deadline`, in deadline order with ties kept in arrival order. It leaves
both when a response arrives (`cy_ingest_topic_response_transfer`) or when its deadline passes
(`retire_timed_out_futures`, run by `cy_update`).

## Representation

Futures are addressed by natural numbers like topics, and the indices are lists of them as in
`Cy.Index`. The user's callbacks are not modelled here: what one does through the API is a step
of its own. The platform's `topic_publish` is an oracle whose result is an input.
-/

namespace Cy

namespace Node

variable (cy : Node)

/-- The key of `futures_by_transfer_id`. -/
def transferIdOf (q : Nat) : Nat := (cy.futures q).transferIdMasked.toNat

/-- The key of `futures_by_deadline`. -/
def deadlineOf (q : Nat) : Int := (cy.futures q).deadline

/-- Put the future object `fut` at `f`. -/
def setFuture (f : Nat) (fut : Future) : Node :=
  { cy with futures := Function.update cy.futures f fut }

/-- Insert the future at `f` into `futures_by_deadline` under the deadline `dl`. -/
def insertDeadline (f : Nat) (dl : Int) : Node :=
  { cy with
    futuresByDeadline :=
      (Index.findOrInsert (Index.stableCmp cy.deadlineOf dl) f cy.futuresByDeadline).2 }

section
variable {cy} {f : Nat} {fut : Future} {dl : Int}
@[simp] theorem setFuture_topics : (cy.setFuture f fut).topics = cy.topics := rfl
@[simp] theorem setFuture_futures :
    (cy.setFuture f fut).futures = Function.update cy.futures f fut := rfl
@[simp] theorem setFuture_futuresByDeadline :
    (cy.setFuture f fut).futuresByDeadline = cy.futuresByDeadline := rfl
@[simp] theorem setFuture_bloom : (cy.setFuture f fut).bloom = cy.bloom := rfl
@[simp] theorem insertDeadline_topics : (cy.insertDeadline f dl).topics = cy.topics := rfl
@[simp] theorem insertDeadline_bloom : (cy.insertDeadline f dl).bloom = cy.bloom := rfl
@[simp] theorem insertDeadline_futures : (cy.insertDeadline f dl).futures = cy.futures := rfl
end

/-- Take the future at `f` out of both indices with its final state and last response. -/
def finalizeFuture (f : Nat) (state : FutureState) (lastResponse : Option Transfer) : Node :=
  { cy with
    futuresByDeadline := cy.futuresByDeadline.erase f
    futures := Function.update cy.futures f
      { cy.futures f with state := state, lastResponse := lastResponse } }.modifyTopic
    (cy.futures f).topic fun t ↦ { t with futuresByTransferId := t.futuresByTransferId.erase f }

end Node

/-! ## Publication -/

/-- The future `cy_publish` sets up for a publication on the topic at `p`. -/
def pendingFuture (env : Env) (cy : Node) (p : Nat) (responseDeadline : Int) : Future where
  topic := p
  state := .pending
  transferIdMasked := (cy.topics p).pubTransferId &&& env.transferIdMask
  deadline := responseDeadline
  lastResponse := none

/-- `cy_publish` on the topic at `p`, with the future at `f` when one is given; `res` is the
result of the platform's `topic_publish`. The node and the result of the call. -/
def publish (env : Env) (cy : Node) (p : Nat) (future : Option Nat) (responseDeadline : Int)
    (res : Int) : Node × Int :=
  let cy1 := cy.modifyTopic p fun t ↦ { t with publishing := true }
  let bump (c : Node) := c.modifyTopic p fun t ↦ { t with pubTransferId := t.pubTransferId + 1 }
  match future with
  | none => (bump cy1, res)
  | some f =>
    let cy2 := cy1.setFuture f (pendingFuture env cy1 p responseDeadline)
    let r := Index.findOrInsert (Index.keyCmp cy2.transferIdOf (cy2.transferIdOf f)) f
      (cy2.topics p).futuresByTransferId
    if r.1 ≠ f then (cy2, -12345)
    else
      let cy3 := cy2.modifyTopic p fun t ↦ { t with futuresByTransferId := r.2 }
      if 0 ≤ res then (bump (cy3.insertDeadline f responseDeadline), res)
      else
        (bump (cy3.modifyTopic p fun t ↦
          { t with futuresByTransferId := t.futuresByTransferId.erase f }), res)

/-- `cy_respond`: the payload handed to the platform's `request`, the topic hash in front of the
user's fragments. The node is not changed. -/
def respond (cy : Node) (p : Nat) (payload : List (List (BitVec 8))) : List (List (BitVec 8)) :=
  leBytes 8 (cy.topics p).hash.toNat :: payload

/-! ## Completion -/

/-- `cy_ingest_topic_response_transfer`, `r` being the PRNG draw of `mark_neighbor`; `none`
when `assert(fut->state == cy_future_pending)` fails. -/
def ingestTopicResponseTransfer (env : Env) (cy : Node) (tr : Transfer) (r : BitVec 64) :
    Option Node :=
  let cy1 := markNeighbor env.nodeIdMax cy tr.remoteNodeId r
  let head := tr.payload.headD []
  if head.length < 8 then some cy1
  else
    match cy1.findByHash (BitVec.ofNat 64 (leValue (head.take 8))) with
    | none => some cy1
    | some p =>
      let masked := tr.transferId &&& env.transferIdMask
      match Index.find (Index.keyCmp cy1.transferIdOf masked.toNat)
          (cy1.topics p).futuresByTransferId with
      | none => some cy1
      | some f =>
        if (cy1.futures f).state ≠ .pending then none
        else some (cy1.finalizeFuture f .success
          (some { tr with payload := head.drop 8 :: tr.payload.tail }))

/-- `retire_timed_out_futures` with `n` sweeps left: while the earliest deadline is before `now`,
that future fails and leaves both indices. `none` when a swept future is not pending. -/
def retireTimedOutFutures (now : Int) : Nat → Node → Option Node
  | 0, cy => some cy
  | n + 1, cy =>
    match Index.min cy.futuresByDeadline with
    | none => some cy
    | some f =>
      if (cy.futures f).deadline < now then
        if (cy.futures f).state ≠ .pending then none
        else retireTimedOutFutures now n (cy.finalizeFuture f .failure (cy.futures f).lastResponse)
      else some cy

end Cy
