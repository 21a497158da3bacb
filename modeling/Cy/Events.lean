import Cy.NodeId
import Cy.Wire

/-!
# Event timestamps

A node and each of its topics carry `last_event_ts`, the time of the last gossip event that
changed the local view; `cy.h` documents that "it can only increase". `cy_new` and
`cy_topic_new_hint` stamp it with the clock, and `on_heartbeat` with the timestamp of the
heartbeat transfer it merges.

## The stamp of one call

`Node.lastEventTs_ingestTopicTransfer`: ingesting a transfer leaves the node's `last_event_ts` as
it is or sets it to the transfer's timestamp, whatever the stamp was before: the writes of
`on_heartbeat` are plain assignments.

## A decrease

The assignment is not a maximum: a heartbeat received earlier but ingested later moves the
stamp back, although every timestamp is at most the clock. `lastEventTs_decreases` is such a run.
-/

namespace Cy

section Stamp

variable {cy cy' : Node}

/-- A merge leaves the stamp or sets it to the transfer's timestamp `ts`. -/
theorem Node.lastEventTs_mergeGossip {subscribeOk : Nat → Bool} {ts : Int}
    {oh oe oa : BitVec 64} (hm : mergeGossip subscribeOk cy ts oh oe oa = some cy') :
    cy'.lastEventTs = cy.lastEventTs ∨ cy'.lastEventTs = ts := by
  simp only [mergeGossip] at hm
  split at hm
  · split at hm
    · cases hm; exact .inl rfl
    · split at hm
      · cases hm; exact .inr rfl
      · obtain ⟨c, -, rfl⟩ := Option.map_eq_some'.1 hm
        exact .inr rfl
  · split at hm
    · split at hm
      · cases hm; exact .inr rfl
      · obtain ⟨c, -, rfl⟩ := Option.map_eq_some'.1 hm
        exact .inr rfl
    · cases hm; exact .inl rfl

theorem Node.lastEventTs_runCallbacks {subscribeOk : Nat → Bool} {p : Nat} {tr : Transfer} :
    ∀ {l : List Nat} {cy cy' : Node}, runCallbacks subscribeOk p tr l cy = some cy' →
      cy'.lastEventTs = cy.lastEventTs ∨ cy'.lastEventTs = tr.timestamp
  | [], _, _, h => by cases h; exact .inl rfl
  | s :: l, cy, cy', h => by
    simp only [runCallbacks] at h
    split_ifs at h
    · obtain ⟨c, hc, h⟩ := Option.bind_eq_some.1 h
      have hc' : c.lastEventTs = cy.lastEventTs ∨ c.lastEventTs = tr.timestamp := by
        simp only [onHeartbeat] at hc
        split at hc
        · cases hc; exact .inl rfl
        · exact Node.lastEventTs_mergeGossip hc
      rcases Node.lastEventTs_runCallbacks h with h' | h'
      · exact h' ▸ hc'
      · exact .inr h'
    · exact Node.lastEventTs_runCallbacks h

/-- **Ingesting a transfer leaves the node's event stamp or sets it to the transfer's
timestamp**, whatever the stamp was before. -/
theorem Node.lastEventTs_ingestTopicTransfer {env : Env} {subscribeOk : Nat → Bool} {p : Nat}
    {tr : Transfer} {r : BitVec 64} {fuel : Nat}
    (h : ingestTopicTransfer env subscribeOk cy p tr r fuel = some cy') :
    cy'.lastEventTs = cy.lastEventTs ∨ cy'.lastEventTs = tr.timestamp := by
  simp only [ingestTopicTransfer] at h
  split at h
  · cases h; exact .inl rfl
  · obtain ⟨l, -, hr⟩ := Option.bind_eq_some.1 h
    simpa [markNeighbor] using Node.lastEventTs_runCallbacks hr

end Stamp

/-! ## A decrease -/

/-- `canNode`, created at time `100`, ingests on its heartbeat topic a heartbeat received at
`150` and then one received at `120`, both announcing the topic with eviction counter `1` and
age `0`: each is a divergence the local topic wins, and
`last_event_ts` goes from `100` to `150` and back to `120`. -/
theorem lastEventTs_decreases :
    ((ingestTopicTransfer Env.can (fun _ ↦ true) canNode 0
        (Transfer.gossip 9 150 heartbeatName 7509 1 0) 0 1).bind fun c ↦
      (ingestTopicTransfer Env.can (fun _ ↦ true) c 0
        (Transfer.gossip 9 120 heartbeatName 7509 1 0) 0 1).map fun c' ↦
        (canNode.lastEventTs, c.lastEventTs, c'.lastEventTs)) = some (100, 150, 120) := by
  decide

end Cy
