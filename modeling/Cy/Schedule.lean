import Cy.Tables
import Mathlib.Data.List.Rotate

/-!
# The gossip schedule

`cy_update` publishes one heartbeat per period, for the topic at the front of
`topics_by_gossip_time`, and `update_last_gossip_time` then takes that topic out and puts it
back under the time of the publication. The comparator of the index never returns equal
(`cavl_comp_topic_gossip_time`), so a topic goes behind every topic stamped at that time or
earlier, whether it is restamped (`updateLastGossipTime_fifo`) or enters the index as a new
topic (`insertTopic_fifo`): among topics of equal `last_gossip` the index keeps the order in
which they entered it.

## The topic gossiped next

In every reachable state the gossip index holds the live topics in non-decreasing `last_gossip`
order (`TopicTables`), so the topic whose heartbeat `cy_update` publishes, the one at the front,
has the smallest `last_gossip` of all live topics (`update_gossips_min`).

## The calls that leave the schedule alone

`QuietStep` is a call that creates no topic, reallocates none, and runs neither
`schedule_gossip_asap` nor `cy_notify_discriminator_collision`: the response path, publication,
subscription, `cy_respond`, a node-ID collision, a `cy_topic_new_hint` that creates nothing, a
`cy_update` without a heartbeat, and a received transfer whose heartbeat, if `on_heartbeat`
reads it, names a held topic under its own eviction counter or an unheld topic on a free
subject-ID (`Node.quietOn`). None of them changes the topic tables (`QuietStep.tables_eq`), so
none changes the schedule.

## Round robin

`Beats` is a segment of a run made of quiet calls and heartbeats of `cy_update` at
non-decreasing times. When no gossip stamp is later than the clock at its start, each heartbeat
moves the topic at the front of the index to the back, so the heartbeats follow the rotations of
the index (`Beats.rotations`), and any `topic_count` consecutive ones gossip every live topic
exactly once (`gossip_round_robin`).
-/

namespace Cy

namespace Node

/-- What the gossip scheduler reads of a node: the gossip index and every topic's
`last_gossip`. -/
def gossipView (cy : Node) : List Nat × (Nat → Int) := (cy.topicsByGossipTime, cy.lastGossipOf)

variable {cy cy' : Node}

/-- The gossip schedule is part of the topic tables. -/
theorem gossipView_of_tables (h : cy'.tables = cy.tables) : cy'.gossipView = cy.gossipView := by
  have hG : cy'.topicsByGossipTime = cy.topicsByGossipTime := congrArg (·.1.2.2.1) h
  have hL : cy'.lastGossipOf = cy.lastGossipOf :=
    funext fun q ↦ congrArg (fun v ↦ (v.2 q).2.2) h
  simp only [gossipView, hG, hL]

/-- **`update_last_gossip_time` puts the topic behind every topic stamped no later**: the index
becomes the topics stamped at most `ts`, in their order, then the topic, then the rest. -/
theorem updateLastGossipTime_fifo (p : Nat) (ts : Int) :
    (cy.updateLastGossipTime p ts).topicsByGossipTime =
      (cy.topicsByGossipTime.erase p).takeWhile
          (fun q ↦ (cy.updateLastGossipTime p ts).lastGossipOf q ≤ ts) ++
        p :: (cy.topicsByGossipTime.erase p).dropWhile
          (fun q ↦ (cy.updateLastGossipTime p ts).lastGossipOf q ≤ ts) ∧
      (cy.updateLastGossipTime p ts).lastGossipOf = Function.update cy.lastGossipOf p ts := by
  refine ⟨Index.findOrInsert_stableCmp_eq _ _ _, funext fun q ↦ ?_⟩
  simp only [lastGossipOf, updateLastGossipTime, modifyTopic_topics, Function.update_apply]
  split <;> rfl

/-- The schedule after a restamp depends only on the schedule before. -/
theorem gossipView_updateLastGossipTime_congr (h : cy'.gossipView = cy.gossipView) (p : Nat)
    (ts : Int) :
    (cy'.updateLastGossipTime p ts).gossipView = (cy.updateLastGossipTime p ts).gossipView := by
  simp only [gossipView, Prod.mk.injEq] at h ⊢
  obtain ⟨h₁, h₂⟩ := (@updateLastGossipTime_fifo cy' p ts)
  obtain ⟨h₃, h₄⟩ := (@updateLastGossipTime_fifo cy p ts)
  rw [h₁, h₃, h₂, h₄, h.1, h.2]
  exact ⟨rfl, rfl⟩

/-- **A topic at the front, restamped no earlier than every stamp, goes to the back.** -/
theorem updateLastGossipTime_rotate {p : Nat} {rest : List Nat} {ts : Int}
    (hG : cy.topicsByGossipTime = p :: rest) (hle : ∀ q ∈ rest, cy.lastGossipOf q ≤ ts) :
    (cy.updateLastGossipTime p ts).topicsByGossipTime = rest ++ [p] := by
  obtain ⟨h₁, h₂⟩ := @updateLastGossipTime_fifo cy p ts
  have hall : ∀ q ∈ rest, (cy.updateLastGossipTime p ts).lastGossipOf q ≤ ts := fun q hq ↦ by
    rw [h₂, Function.update_apply]; split
    · exact le_rfl
    · exact hle q hq
  rw [h₁, hG, List.erase_cons_head, List.takeWhile_eq_self_iff.2 (by simpa using hall),
    List.dropWhile_eq_nil_iff.2 (by simpa using hall)]

theorem gossipView_publishHeartbeat {p : Nat} {now : Int} {bytes : List (BitVec 8)}
    (h : publishHeartbeat cy p now = some (cy', bytes)) :
    cy'.gossipView = (cy.updateLastGossipTime p now).gossipView := by
  unfold publishHeartbeat at h
  split at h
  · rename_i t _ ha _
    dsimp only at h
    split_ifs at h
    cases h
    exact gossipView_updateLastGossipTime_congr (gossipView_of_tables
      ((tables_modifyTopic rfl).trans (tables_modifyTopic (keys_ageTopic ha)))) p now
  · cases h

/-- **A new topic enters the gossip index behind every topic stamped `0` or earlier.** -/
theorem insertTopic_fifo {p : Nat} {t : Topic} {c : Node} (h : cy.insertTopic p t = some c) :
    c.topicsByGossipTime = cy.topicsByGossipTime.takeWhile (fun q ↦ c.lastGossipOf q ≤ 0) ++
      p :: cy.topicsByGossipTime.dropWhile fun q ↦ c.lastGossipOf q ≤ 0 := by
  unfold insertTopic at h
  dsimp only at h
  split_ifs at h
  cases h
  exact Index.findOrInsert_stableCmp_eq _ _ _

end Node

/-! ## The topic gossiped next -/

theorem processCollision_no_heartbeat (env : Env) (cy : Node) (now : Int)
    (bytes : List (BitVec 8)) : Call.heartbeat bytes ∉ (processCollision env cy now).2 := by
  unfold processCollision; split_ifs <;> simp

section Update

variable {env : Env} {cy cy' : Node} {now : Int} {r₁ r₂ r₃ : BitVec 64} {setRes pubRes res : Int}
  {calls : List Call}

/-- **What `cy_update` does to the schedule.** It publishes no heartbeat and leaves the topic
tables alone; or it publishes one heartbeat, that of the topic at the front of the gossip index,
from a node with the same topic tables, and leaves the schedule that `update_last_gossip_time` of
that topic at `now` gives. -/
theorem update_gossip_cases
    (hu : update env cy now r₁ r₂ r₃ setRes pubRes = some (cy', res, calls)) :
    (cy'.tables = cy.tables ∧ ∀ b, Call.heartbeat b ∉ calls) ∨
      ∃ p cy3 cy4 bytes, Index.min cy.topicsByGossipTime = some p ∧ cy3.tables = cy.tables ∧
        publishHeartbeat cy3 p now = some (cy4, bytes) ∧
        cy'.gossipView = (cy.updateLastGossipTime p now).gossipView ∧
        ∀ b, Call.heartbeat b ∈ calls ↔ b = bytes := by
  obtain ⟨cy1, cy2, calls2, h1, h2, hrest⟩ := update_cases hu
  have ht2 : cy2.tables = cy.tables := by
    rw [show cy2 = (processCollision env cy1 now).1 by rw [h2], tables_processCollision,
      Node.tables_retireTimedOutFutures h1]
  have hc2 : ∀ b, Call.heartbeat b ∉ calls2 := fun b ↦ by
    simpa [h2] using processCollision_no_heartbeat env cy1 now b
  rcases hrest with ⟨-, rfl, -, rfl⟩ | ⟨-, cy3, res3, calls3, hpick, -, hrest⟩
  · exact .inl ⟨ht2, hc2⟩
  have ht3 : cy3.tables = cy.tables ∧ ∀ b, Call.heartbeat b ∉ calls3 := by
    rcases hpick with ⟨-, n, b, -, rfl, -, rfl⟩ | ⟨-, rfl, -, rfl⟩
    · exact ⟨ht2, by simpa using hc2⟩
    · exact ⟨ht2, hc2⟩
  rcases hrest with ⟨-, rfl, -, rfl⟩ | ⟨-, p, cy4, bytes, hp, h4, -, rfl, -, rfl⟩
  · exact .inl ht3
  have hG : cy3.topicsByGossipTime = cy.topicsByGossipTime := congrArg (·.1.2.2.1) ht3.1
  refine .inr ⟨p, cy3, cy4, bytes, hG ▸ hp, ht3.1, h4, ?_, fun b ↦ by simp [ht3.2 b]⟩
  exact (Node.gossipView_publishHeartbeat h4).trans
    (Node.gossipView_updateLastGossipTime_congr (Node.gossipView_of_tables ht3.1) p now)

theorem update_heartbeat {bytes : List (BitVec 8)}
    (hu : update env cy now r₁ r₂ r₃ setRes pubRes = some (cy', res, calls))
    (hb : Call.heartbeat bytes ∈ calls) :
    ∃ p cy3 cy4, Index.min cy.topicsByGossipTime = some p ∧ cy3.tables = cy.tables ∧
      publishHeartbeat cy3 p now = some (cy4, bytes) ∧
      cy'.gossipView = (cy.updateLastGossipTime p now).gossipView := by
  rcases update_gossip_cases hu with ⟨-, hn⟩ | ⟨p, cy3, cy4, b, hp, h3, h4, hv, hc⟩
  · exact absurd hb (hn bytes)
  · obtain rfl := (hc bytes).1 hb
    exact ⟨p, cy3, cy4, hp, h3, h4, hv⟩

theorem tables_update_of_no_heartbeat
    (hu : update env cy now r₁ r₂ r₃ setRes pubRes = some (cy', res, calls))
    (hb : ∀ b, Call.heartbeat b ∉ calls) : cy'.tables = cy.tables := by
  rcases update_gossip_cases hu with ⟨ht, -⟩ | ⟨-, -, -, b, -, -, -, -, hc⟩
  · exact ht
  · exact absurd ((hc b).2 rfl) (hb b)

/-- **`cy_update` gossips a topic of smallest `last_gossip`.** In every reachable state, a
heartbeat that `cy_update` publishes is that of the topic at the front of the gossip index, a
live topic whose `last_gossip` is the smallest of all live topics. -/
theorem update_gossips_min (hr : Reachable env cy) {bytes : List (BitVec 8)}
    (hu : update env cy now r₁ r₂ r₃ setRes pubRes = some (cy', res, calls))
    (hb : Call.heartbeat bytes ∈ calls) :
    ∃ p, Index.min cy.topicsByGossipTime = some p ∧ p ∈ cy.topicsByHash ∧
      (∀ q ∈ cy.topicsByHash, (cy.topics p).lastGossip ≤ (cy.topics q).lastGossip) ∧
      ∃ cy3 cy4, cy3.tables = cy.tables ∧ publishHeartbeat cy3 p now = some (cy4, bytes) := by
  have ht := TopicTables.of_reachable hr
  obtain ⟨p, cy3, cy4, hp, h3, h4, -⟩ := update_heartbeat hu hb
  obtain ⟨rest, hG⟩ := List.head?_eq_some_iff.1 hp
  have hs := ht.gossip_sorted
  rw [hG] at hs
  refine ⟨p, hp, ht.gossip_perm.mem_iff.1 (hG ▸ List.mem_cons_self _ _), fun q hq ↦ ?_,
    cy3, cy4, h3, h4⟩
  rcases List.mem_cons.1 (hG ▸ ht.gossip_perm.mem_iff.2 hq) with rfl | hq
  · exact le_rfl
  · exact (List.pairwise_cons.1 hs).1 q hq

end Update

/-! ## The calls that leave the schedule alone -/

namespace Node

/-- Whether `on_heartbeat` merges a heartbeat announcing `hash` and `evictions` without
reallocating a topic or scheduling one: the topic is held under the announced eviction counter,
or it is not held and no topic holds its subject-ID. -/
def mergesQuietly (cy : Node) (hash evictions : BitVec 64) : Bool :=
  match cy.findByHash hash with
  | none => (cy.findBySubjectId (topicGetSubjectId hash evictions)).isNone
  | some mine => decide ((cy.topics mine).evictions = evictions)

/-- Whether `on_heartbeat` of the transfer merges quietly: it decodes to no heartbeat, or to one
that merges quietly. -/
def quietOn (cy : Node) (tr : Transfer) : Bool :=
  match receiveHeartbeat tr.payload with
  | none => true
  | some hb => cy.mergesQuietly hb.topicHash hb.evictions

variable {cy cy' : Node}

/-- Whether a heartbeat merges quietly depends only on the topic tables. -/
theorem quietOn_congr (h : cy'.tables = cy.tables) : cy'.quietOn = cy.quietOn := by
  have h1 : cy'.topicsByHash = cy.topicsByHash := congrArg (·.1.1) h
  have h2 : cy'.topicsBySubjectId = cy.topicsBySubjectId := congrArg (·.1.2.1) h
  have hk : ∀ q, (cy'.topics q).hash = (cy.topics q).hash ∧
      (cy'.topics q).evictions = (cy.topics q).evictions := fun q ↦
    ⟨congrArg (·.1) (congrArg (·.2 q) h), congrArg (·.2.1) (congrArg (·.2 q) h)⟩
  have hh : cy'.hashOf = cy.hashOf := funext fun q ↦ by simp only [hashOf, (hk q).1]
  have hs : cy'.subjectIdOf = cy.subjectIdOf := funext fun q ↦ by
    simp only [subjectIdOf, (hk q).1, (hk q).2]
  funext tr
  simp only [quietOn, mergesQuietly, findByHash, findBySubjectId, h1, h2, hh, hs,
    fun q ↦ (hk q).2]

variable {subscribeOk : Nat → Bool}

/-- A heartbeat that merges quietly changes at most the age of the topic it names. -/
theorem mergeGossip_quiet {ts : Int} {oh oe oa : BitVec 64} (hq : cy.mergesQuietly oh oe)
    (hm : mergeGossip subscribeOk cy ts oh oe oa = some cy') :
    cy'.tables = cy.tables ∧ cy'.subs = cy.subs := by
  unfold mergesQuietly at hq
  unfold mergeGossip at hm
  split at hm <;> rename_i hf <;> simp only [hf] at hq
  · split at hm
    · cases hm; exact ⟨rfl, rfl⟩
    · rename_i hs; simp [hs] at hq
  · rw [if_neg (by simpa using hq)] at hm
    cases hm; exact ⟨tables_merge _ _ _, rfl⟩

/-- The callbacks of a quietly merged transfer leave the tables and the subscriptions alone. -/
theorem runCallbacks_quiet {p : Nat} {tr : Transfer} :
    ∀ {l : List Nat} {c c' : Node}, (∀ s ∈ l, (c.subs s).callback = .onHeartbeat → c.quietOn tr) →
      runCallbacks subscribeOk p tr l c = some c' → c'.tables = c.tables ∧ c'.subs = c.subs
  | [], _, _, _, hr => by cases hr; exact ⟨rfl, rfl⟩
  | s :: l, c, c', hq, hr => by
    simp only [runCallbacks] at hr
    split_ifs at hr with h1 h2
    · obtain ⟨c1, hc1, hr⟩ := Option.bind_eq_some.1 hr
      have hq1 := hq s (List.mem_cons_self _ _) h2
      have he : c1.tables = c.tables ∧ c1.subs = c.subs := by
        unfold onHeartbeat at hc1
        unfold quietOn at hq1
        split at hc1 <;> rename_i hrecv <;> simp only [hrecv] at hq1
        · cases hc1; exact ⟨rfl, rfl⟩
        · exact mergeGossip_quiet hq1 hc1
      have := runCallbacks_quiet (fun s' hs' hcb ↦ by
        rw [quietOn_congr he.1]
        exact hq s' (List.mem_cons_of_mem _ hs') (by rwa [he.2] at hcb)) hr
      exact ⟨this.1.trans he.1, this.2.trans he.2⟩
    · exact runCallbacks_quiet (fun s' hs' ↦ hq s' (List.mem_cons_of_mem _ hs')) hr

/-- **A received transfer that `on_heartbeat` merges quietly leaves the topic tables alone.** -/
theorem tables_ingestTopicTransfer_quiet {env : Env} {p : Nat} {tr : Transfer} {r : BitVec 64}
    {fuel : Nat}
    (hq : ∀ l, walkSubs cy.subs fuel (cy.topics p).subList = some l →
      ∀ s ∈ l, (cy.subs s).callback = .onHeartbeat → cy.quietOn tr)
    (hi : ingestTopicTransfer env subscribeOk cy p tr r fuel = some cy') :
    cy'.tables = cy.tables := by
  simp only [ingestTopicTransfer] at hi
  have h1 := (tables_modifyTopic (p := p) (f := fun t ↦ { t with age := t.age + 1 }) rfl).trans
    (@tables_markNeighbor cy env.nodeIdMax tr.remoteNodeId r)
  split at hi
  · cases hi; exact h1
  · obtain ⟨l, hl, hr⟩ := Option.bind_eq_some.1 hi
    have h2 := (tables_modifyTopic (p := p) (f := fun t ↦ { t with subLastTransfer := some tr })
      rfl).trans h1
    refine (runCallbacks_quiet (fun s hs hcb ↦ ?_) hr).1.trans h2
    rw [quietOn_congr h2]
    exact hq l (by simpa [modifyTopic_topics] using hl) s hs hcb

end Node

/-- The calls a segment of the gossip schedule may make besides its heartbeats: every call but
those that create a topic, reallocate one, or run `schedule_gossip_asap` or
`cy_notify_discriminator_collision`. A `cy_topic_new_hint` creates nothing, `cy_update`
publishes no heartbeat, and a received transfer that `on_heartbeat` reads merges quietly. -/
inductive QuietStep (env : Env) : Node → Node → Prop
  | topicNewHint {cy cy' : Node} {subscribeOk : Nat → Bool} {p : Nat} {name : List Char}
      {hint : Nat} {now : Int} {r : BitVec 64} :
      p ∉ cy.topicsByHash →
      topicNewHint env subscribeOk cy p name hint now r = some (cy', false) → QuietStep env cy cy'
  | ingestTopicTransfer {cy cy' : Node} {subscribeOk : Nat → Bool} {p : Nat} {tr : Transfer}
      {r : BitVec 64} {fuel : Nat} :
      p ∈ cy.topicsByHash →
      (∀ l, walkSubs cy.subs fuel (cy.topics p).subList = some l →
        ∀ s ∈ l, (cy.subs s).callback = .onHeartbeat → cy.quietOn tr) →
      ingestTopicTransfer env subscribeOk cy p tr r fuel = some cy' → QuietStep env cy cy'
  | ingestTopicResponseTransfer {cy cy' : Node} {tr : Transfer} {r : BitVec 64} :
      ingestTopicResponseTransfer env cy tr r = some cy' → QuietStep env cy cy'
  | update {cy cy' : Node} {now : Int} {r₁ r₂ r₃ : BitVec 64} {setRes pubRes res : Int}
      {calls : List Call} :
      update env cy now r₁ r₂ r₃ setRes pubRes = some (cy', res, calls) →
      (∀ b, Call.heartbeat b ∉ calls) → QuietStep env cy cy'
  | publish {cy : Node} {p : Nat} {future : Option Nat} {responseDeadline res : Int} :
      p ∈ cy.topicsByHash →
      (∀ f ∈ future, f ∉ cy.futuresByDeadline ∧
        ∀ q ∈ cy.topicsByHash, f ∉ (cy.topics q).futuresByTransferId) →
      QuietStep env cy (publish env cy p future responseDeadline res).1
  | respond {cy : Node} : QuietStep env cy cy
  | subscribe {cy cy' : Node} {p s extent fuel : Nat} {timeout res err : Int}
      {callback : Callback} :
      p ∈ cy.topicsByHash → callback ≠ .onHeartbeat →
      subscribeWithTransferIdTimeout cy p s extent timeout callback fuel res = some (cy', err) →
      QuietStep env cy cy'
  | notifyNodeIdCollision {cy : Node} : QuietStep env cy (notifyNodeIdCollision cy)

namespace QuietStep

variable {env : Env} {cy cy' : Node}

/-- A quiet call is a call. -/
theorem step (h : QuietStep env cy cy') : ∃ calls, Step env cy calls cy' := by
  cases h with
  | topicNewHint hp ht => exact ⟨_, .topicNewHint hp ht⟩
  | ingestTopicTransfer hp _ hi => exact ⟨_, .ingestTopicTransfer hp hi⟩
  | ingestTopicResponseTransfer hi => exact ⟨_, .ingestTopicResponseTransfer hi⟩
  | update hu _ => exact ⟨_, .update hu⟩
  | publish hp hf => exact ⟨_, .publish hp hf⟩
  | respond => exact ⟨_, .respond⟩
  | subscribe hp hc hs => exact ⟨_, .subscribe hp hc hs⟩
  | notifyNodeIdCollision => exact ⟨_, .notifyNodeIdCollision⟩

/-- **A quiet call leaves the topic tables alone.** -/
theorem tables_eq (h : QuietStep env cy cy') : cy'.tables = cy.tables := by
  cases h with
  | topicNewHint _ ht =>
    rcases topicNewHint_cases ht with ⟨rfl, -⟩ | ⟨-, rfl, -⟩ | ⟨-, -, -, -, -, -, -, -, -, h⟩
    · rfl
    · rfl
    · cases h
  | ingestTopicTransfer _ hq hi => exact Node.tables_ingestTopicTransfer_quiet hq hi
  | ingestTopicResponseTransfer hi => exact Node.tables_ingestTopicResponseTransfer hi
  | update hu hb => exact tables_update_of_no_heartbeat hu hb
  | publish _ _ => exact Node.tables_publish
  | respond => rfl
  | subscribe _ _ hs => exact Node.tables_subscribeWithTransferIdTimeout hs
  | notifyNodeIdCollision => rfl

theorem gossipView_eq (h : QuietStep env cy cy') : cy'.gossipView = cy.gossipView :=
  Node.gossipView_of_tables h.tables_eq

end QuietStep

/-! ## Round robin -/

/-- A run segment and the topics its heartbeats gossip: from `cy`, with the clock at `t` or
later, quiet calls and calls of `cy_update` that publish a heartbeat lead to `cy'`; each
heartbeat comes no earlier than the one before and gossips the topic at the front of the gossip
index, as `update_heartbeat` says it does. -/
inductive Beats (env : Env) : Int → Node → List Nat → Node → Prop
  | nil {t : Int} {cy : Node} : Beats env t cy [] cy
  | quiet {t : Int} {cy c cy' : Node} {ps : List Nat} :
      QuietStep env cy c → Beats env t c ps cy' → Beats env t cy ps cy'
  | beat {t now : Int} {cy c cy' : Node} {r₁ r₂ r₃ : BitVec 64} {setRes pubRes res : Int}
      {calls : List Call} {bytes : List (BitVec 8)} {p : Nat} {ps : List Nat} :
      t ≤ now → update env cy now r₁ r₂ r₃ setRes pubRes = some (c, res, calls) →
      Call.heartbeat bytes ∈ calls → Index.min cy.topicsByGossipTime = some p →
      Beats env now c ps cy' → Beats env t cy (p :: ps) cy'

/-- A segment is a run. -/
theorem Beats.reachable {env : Env} {t : Int} {cy cy' : Node} {ps : List Nat}
    (hb : Beats env t cy ps cy') (hr : Reachable env cy) : Reachable env cy' := by
  induction hb with
  | nil => exact hr
  | quiet hq _ ih => obtain ⟨_, hs⟩ := hq.step; exact ih (hr.step hs)
  | beat _ hu _ _ _ ih => exact ih (hr.step (.update hu))

/-- **The heartbeats of a segment follow the rotations of the gossip index**: the `k`-th gossips
the topic at position `k mod topic_count` of the index the segment starts from, when no stamp of
the index is later than the clock. -/
theorem Beats.rotations {env : Env} {t : Int} {cy cy' : Node} {ps : List Nat}
    (hb : Beats env t cy ps cy') :
    (∀ q ∈ cy.topicsByGossipTime, cy.lastGossipOf q ≤ t) →
      ∀ k < ps.length, ps[k]? = cy.topicsByGossipTime[k % cy.topicsByGossipTime.length]? := by
  induction hb with
  | nil => intro _ k hk; exact absurd hk (Nat.not_lt_zero k)
  | quiet hq _ ih =>
    have he := hq.gossipView_eq
    simp only [Node.gossipView, Prod.mk.injEq] at he
    rw [← he.1]
    exact fun hle ↦ ih fun q hq ↦ by rw [he.2]; exact hle q hq
  | @beat t now cy c cy' _ _ _ _ _ _ _ _ p ps htn hu hbeat hp _ ih =>
    intro hle
    obtain ⟨p', -, -, hp', -, -, hv⟩ := update_heartbeat hu hbeat
    obtain rfl : p = p' := Option.some_injective _ (hp.symm.trans hp')
    obtain ⟨rest, hG⟩ := List.head?_eq_some_iff.1 hp
    have hrest : ∀ q ∈ rest, cy.lastGossipOf q ≤ now :=
      fun q hq ↦ (hle q (hG ▸ List.mem_cons_of_mem _ hq)).trans htn
    simp only [Node.gossipView, Prod.mk.injEq] at hv
    have hcG : c.topicsByGossipTime = cy.topicsByGossipTime.rotate 1 := by
      rw [hv.1, Node.updateLastGossipTime_rotate hG hrest, hG, List.rotate_cons_succ,
        List.rotate_zero]
    have ih' := ih fun q hq ↦ by
      rw [hv.2, (Node.updateLastGossipTime_fifo p now).2, Function.update_apply]
      split
      · exact le_rfl
      · rw [hcG, List.mem_rotate, hG] at hq
        exact hrest q ((List.mem_cons.1 hq).resolve_left ‹_›)
    rw [hcG, List.length_rotate] at ih'
    intro k hk
    have hn : 0 < cy.topicsByGossipTime.length := by rw [hG]; exact Nat.succ_pos _
    cases k with
    | zero => simp only [hG, Nat.zero_mod, List.getElem?_cons_zero]
    | succ k =>
      rw [List.getElem?_cons_succ, ih' k (Nat.lt_of_succ_lt_succ hk),
        List.getElem?_rotate (Nat.mod_lt _ hn), Nat.mod_add_mod]

/-- A list that follows the rotations of `G` shows `G` rotated in every window of `|G|`
consecutive entries. -/
theorem window_eq_rotate {G ps : List Nat} (h : ∀ k < ps.length, ps[k]? = G[k % G.length]?)
    {i : Nat} (hi : i + G.length ≤ ps.length) : (ps.drop i).take G.length = G.rotate i := by
  apply List.ext_getElem?
  intro j
  rw [List.getElem?_take]
  split
  · rename_i hj
    rw [List.getElem?_drop, h _ (by omega), List.getElem?_rotate hj, Nat.add_comm]
  · rename_i hj
    rw [List.getElem?_eq_none (by rw [List.length_rotate]; omega)]

/-- **Round robin.** From every reachable state whose gossip stamps are no later than the clock,
along any segment whose heartbeats come at non-decreasing times and whose other calls leave the
gossip schedule alone, any `topic_count` consecutive heartbeats gossip every live topic exactly
once. -/
theorem gossip_round_robin {env : Env} {t : Int} {cy cy' : Node} {ps : List Nat}
    (hr : Reachable env cy) (hb : Beats env t cy ps cy')
    (hle : ∀ q ∈ cy.topicsByHash, (cy.topics q).lastGossip ≤ t) {i : Nat}
    (hi : i + cy.topicCount ≤ ps.length) :
    ((ps.drop i).take cy.topicCount).Perm cy.topicsByHash := by
  have ht := TopicTables.of_reachable hr
  have hn : cy.topicCount = cy.topicsByGossipTime.length := by
    rw [ht.count_eq, ht.gossip_perm.length_eq]
  rw [hn] at hi ⊢
  rw [window_eq_rotate (hb.rotations fun q hq ↦ hle q (ht.gossip_perm.mem_iff.1 hq)) hi]
  exact (List.rotate_perm _ _).trans ht.gossip_perm

/-! ## The schedule of a reachable node -/

/-- What the gossip scheduler guarantees from a node: a heartbeat of `cy_update` is that of a live
topic of smallest `last_gossip`, the topic at the front of the gossip index; a topic enters the
index, restamped or new, behind every topic stamped no later; and along a segment of quiet calls
and heartbeats at non-decreasing times, starting with no stamp later than the clock, any
`topic_count` consecutive heartbeats gossip every live topic exactly once. -/
structure GossipSchedule (env : Env) (cy : Node) : Prop where
  gossips_min : ∀ {cy' : Node} {now : Int} {r₁ r₂ r₃ : BitVec 64} {setRes pubRes res : Int}
    {calls : List Call} {bytes : List (BitVec 8)},
    update env cy now r₁ r₂ r₃ setRes pubRes = some (cy', res, calls) →
    Call.heartbeat bytes ∈ calls →
    ∃ p, Index.min cy.topicsByGossipTime = some p ∧ p ∈ cy.topicsByHash ∧
      (∀ q ∈ cy.topicsByHash, (cy.topics p).lastGossip ≤ (cy.topics q).lastGossip) ∧
      ∃ cy3 cy4, cy3.tables = cy.tables ∧ publishHeartbeat cy3 p now = some (cy4, bytes)
  restamp_fifo : ∀ p ts,
    (cy.updateLastGossipTime p ts).topicsByGossipTime =
      (cy.topicsByGossipTime.erase p).takeWhile
          (fun q ↦ (cy.updateLastGossipTime p ts).lastGossipOf q ≤ ts) ++
        p :: (cy.topicsByGossipTime.erase p).dropWhile
          (fun q ↦ (cy.updateLastGossipTime p ts).lastGossipOf q ≤ ts)
  insert_fifo : ∀ {p : Nat} {t : Topic} {c : Node}, cy.insertTopic p t = some c →
    c.topicsByGossipTime = cy.topicsByGossipTime.takeWhile (fun q ↦ c.lastGossipOf q ≤ 0) ++
      p :: cy.topicsByGossipTime.dropWhile fun q ↦ c.lastGossipOf q ≤ 0
  round_robin : ∀ {t : Int} {cy' : Node} {ps : List Nat}, Beats env t cy ps cy' →
    (∀ q ∈ cy.topicsByHash, (cy.topics q).lastGossip ≤ t) →
    ∀ i, i + cy.topicCount ≤ ps.length → ((ps.drop i).take cy.topicCount).Perm cy.topicsByHash

/-- **The gossip schedule of every reachable node** is fair: the topic gossiped next has the
smallest `last_gossip`, ties go to the topic that entered the index first, and a run that
restamps no topic out of turn gossips the live topics round robin. -/
theorem gossipSchedule_of_reachable {env : Env} {cy : Node} (hr : Reachable env cy) :
    GossipSchedule env cy where
  gossips_min hu hb := update_gossips_min hr hu hb
  restamp_fifo p ts := (Node.updateLastGossipTime_fifo p ts).1
  insert_fifo h := Node.insertTopic_fifo h
  round_robin hb hle _ hi := gossip_round_robin hr hb hle hi

theorem gossipSchedule_canNode : GossipSchedule Env.can canNode :=
  gossipSchedule_of_reachable canNode_reachable

end Cy
