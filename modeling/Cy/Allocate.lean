import Cy.State

/-!
# Subject-ID allocation

`allocate_topic` places a topic in the subject-ID index. It takes the topic out of the index,
sets its eviction counter, and probes: if the candidate subject-ID is free the topic is inserted;
if the tenant ranks below the topic, the tenant is reallocated recursively with one more eviction
and the same subject-ID is probed again; otherwise the topic itself takes one more eviction and
moves on. The result is scheduled for gossip and resubscribed.

## Two kinds of failure

The probing loop asserts `iter_count <= cy->topic_count` on every iteration; an iteration past
`topic_count + 1` aborts. We model the loop with exactly that many iterations of fuel, running
out being the failed assertion, so the loop is structurally recursive. The recursion has no
bound in the source; here it carries a depth fuel, and the callers pass `topic_count + 2`.
Running out of either is `none`. Everything proved in this file holds of every run that returns,
and the depth is never what stops a run: each nested call reallocates a topic ranked strictly
below the caller's, so the nesting is shorter than the gossip index, and more depth changes
nothing (`allocateTopic_depth_sufficient`).

## What a run changes

`Moves cy cy'` says what an allocation may touch: only the eviction counters, gossip times and
`subscribed` flags of topics, the subject-ID index, and the order of the gossip index. Every
other field of the node and of each topic — the hash index, ages, hashes, event times — is
untouched. `AllocInv` is the shape of the two indices while topics are out of the subject-ID
index: both search trees are valid, the gossip index has no duplicates, and every topic in the
subject-ID index is in the gossip index. `allocateTopic_spec` says that a returning run keeps
`AllocInv`, satisfies `Moves`, and leaves the subject-ID index with the same topics, plus the new
one for a virgin allocation.

## Cascades

A tenant displaced by the topic is reallocated before the topic probes its slot again, and the
slot may have a new tenant by then. `Cascade p cy cy'` says that every topic whose eviction
counter an allocation of `p` changes ranks no higher than `p`. From it,
`allocateTopic_evictions_of_outranks`: a topic that outranks every tenant of its new slot ends
there, with the eviction counter it was given; and `allocateTopic_of_free`: when the slot is free
the allocation returns.
-/

namespace Cy

namespace Node

variable (cy : Node)

/-- `update_last_gossip_time`: the gossip index is keyed on `last_gossip`, so the topic is
removed, restamped and reinserted (after every topic stamped no later). -/
def updateLastGossipTime (p : Nat) (ts : Int) : Node :=
  let cy1 := { cy with topicsByGossipTime := cy.topicsByGossipTime.erase p }.modifyTopic p
    fun t ↦ { t with lastGossip := ts }
  { cy1 with
    topicsByGossipTime :=
      (Index.findOrInsert (Index.stableCmp cy1.lastGossipOf ts) p cy1.topicsByGossipTime).2 }

@[simp] theorem updateLastGossipTime_bloom {cy : Node} {p : Nat} {ts : Int} :
    (cy.updateLastGossipTime p ts).bloom = cy.bloom := rfl

/-- `schedule_gossip_asap`: stamp the topic `0` (pinned topics `1`), unless it is already due. -/
def scheduleGossipAsap (p : Nat) : Node :=
  if 0 < (cy.topics p).lastGossip then
    cy.updateLastGossipTime p (if isPinned (cy.topics p).hash then 1 else 0)
  else cy

@[simp] theorem scheduleGossipAsap_bloom {cy : Node} {p : Nat} :
    (cy.scheduleGossipAsap p).bloom = cy.bloom := by
  unfold scheduleGossipAsap; split <;> rfl

@[simp] theorem updateLastGossipTime_evictions {cy : Node} {p : Nat} {ts : Int} (q : Nat) :
    ((cy.updateLastGossipTime p ts).topics q).evictions = (cy.topics q).evictions := by
  simp only [updateLastGossipTime, modifyTopic_topics]; split <;> simp_all

@[simp] theorem scheduleGossipAsap_evictions {cy : Node} {p : Nat} (q : Nat) :
    ((cy.scheduleGossipAsap p).topics q).evictions = (cy.topics q).evictions := by
  unfold scheduleGossipAsap; split <;> simp

end Node

/-- The probing loop of `allocate_topic` for the topic at `p`, with `n` iterations left before
the assertion `iter_count <= cy->topic_count` fails. `rec` reallocates a displaced tenant. -/
def probe (rec : Node → Nat → Option Node) (p : Nat) : Nat → Node → Option Node
  | 0, _ => none
  | n + 1, cy =>
    let r := Index.findOrInsert (Index.keyCmp cy.subjectIdOf (cy.subjectIdOf p)) p
      cy.topicsBySubjectId
    if r.1 = p then some { cy with topicsBySubjectId := r.2 }
    else if leftWins (cy.topics p).age (cy.topics p).hash (cy.topics r.1).age
        (cy.topics r.1).hash then
      (rec cy r.1).bind (probe rec p n)
    else probe rec p n (cy.modifyTopic p fun t ↦ { t with evictions := t.evictions + 1 })

/-- `allocate_topic(topic, new_evictions, virgin)` for the topic at `p`, with recursion depth
`d`. `subscribeOk` is the platform's answer to `topic_subscribe` for each topic. -/
def allocateTopic (subscribeOk : Nat → Bool) : Nat → Node → Nat → BitVec 64 → Bool → Option Node
  | 0, _, _, _, _ => none
  | d + 1, cy, p, newEvictions, virgin =>
    let cy1 := cy.modifyTopic p fun t ↦ { t with subscribed := false }
    let cy2 := if virgin then cy1
      else { cy1 with topicsBySubjectId := cy1.topicsBySubjectId.erase p }
    let cy3 := cy2.modifyTopic p fun t ↦ { t with evictions := newEvictions }
    (probe (fun c q ↦ allocateTopic subscribeOk d c q ((c.topics q).evictions + 1) false) p
      (cy3.topicCount + 1) cy3).map fun cy4 ↦
        let cy5 := cy4.scheduleGossipAsap p
        if (cy5.topics p).subList = none then cy5
        else cy5.modifyTopic p fun t ↦ { t with subscribed := subscribeOk p }

/-! ## What an allocation may change -/

/-- A topic with the fields an allocation may change blanked out. -/
def Topic.fixed (t : Topic) : Topic :=
  { t with evictions := 0, lastGossip := 0, subscribed := false }

/-- A node with the parts an allocation may change blanked out. -/
def Node.fixed (cy : Node) : Node :=
  { cy with
    topics := fun q ↦ (cy.topics q).fixed, topicsBySubjectId := [], topicsByGossipTime := [] }

/-- An allocation changes only eviction counters, gossip times and `subscribed` flags of topics,
the subject-ID index, and the order of the gossip index. -/
structure Moves (cy cy' : Node) : Prop where
  fixed_eq : cy'.fixed = cy.fixed
  gossip_perm : cy'.topicsByGossipTime.Perm cy.topicsByGossipTime

namespace Moves

variable {cy cy' cy'' : Node}

theorem refl (cy : Node) : Moves cy cy := ⟨rfl, .refl _⟩

theorem trans (h₁ : Moves cy cy') (h₂ : Moves cy' cy'') : Moves cy cy'' :=
  ⟨h₂.fixed_eq.trans h₁.fixed_eq, h₂.gossip_perm.trans h₁.gossip_perm⟩

theorem topic_fixed (h : Moves cy cy') (q : Nat) : (cy'.topics q).fixed = (cy.topics q).fixed :=
  congrFun (congrArg Node.topics h.fixed_eq) q

theorem hash (h : Moves cy cy') (q : Nat) : (cy'.topics q).hash = (cy.topics q).hash := by
  have := congrArg Topic.hash (h.topic_fixed q); exact this

theorem age (h : Moves cy cy') (q : Nat) : (cy'.topics q).age = (cy.topics q).age := by
  have := congrArg Topic.age (h.topic_fixed q); exact this

theorem rankOf (h : Moves cy cy') (q : Nat) : cy'.rankOf q = cy.rankOf q := by
  simp only [Node.rankOf, h.hash, h.age]

theorem topicsByHash (h : Moves cy cy') : cy'.topicsByHash = cy.topicsByHash := by
  have := congrArg Node.topicsByHash h.fixed_eq; exact this

theorem topicCount (h : Moves cy cy') : cy'.topicCount = cy.topicCount := by
  have := congrArg Node.topicCount h.fixed_eq; exact this

/-- Changing the eviction counter, gossip time or `subscribed` flag of one topic. -/
theorem modifyTopic {p : Nat} {f : Topic → Topic} (hf : ∀ t, (f t).fixed = t.fixed) :
    Moves cy (cy.modifyTopic p f) := by
  refine ⟨?_, .refl _⟩
  simp only [Node.fixed, Node.modifyTopic]
  congr 1
  funext q
  by_cases hq : q = p
  · subst hq; simp [hf]
  · simp [hq]

end Moves

/-! ## Who moves in a cascade -/

/-- Every topic whose eviction counter differs between `cy` and `cy'` is `p` or was in the
subject-ID index of `cy`, and ranks no higher than `p`: in a cascade started by `p`, each
displaced tenant lost to a topic that moved before it. -/
def Cascade (p : Nat) (cy cy' : Node) : Prop :=
  ∀ q, (cy'.topics q).evictions ≠ (cy.topics q).evictions →
    (q = p ∨ q ∈ cy.topicsBySubjectId) ∧ cy.rankOf q ≤ cy.rankOf p

namespace Cascade

variable {p : Nat} {cy c cy' : Node}

/-- Nothing but `p` changes its eviction counter. -/
theorem of_evictions (h : ∀ q ≠ p, (cy'.topics q).evictions = (cy.topics q).evictions) :
    Cascade p cy cy' := fun q hq ↦ by
  by_cases hqp : q = p
  · exact ⟨.inl hqp, hqp ▸ le_rfl⟩
  · exact absurd (h q hqp) hq

theorem of_evictions_eq_right (h : Cascade p cy c)
    (he : ∀ q, (cy'.topics q).evictions = (c.topics q).evictions) : Cascade p cy cy' :=
  fun q hq ↦ h q (he q ▸ hq)

/-- The cascade of a tenant `q` ranked no higher than `p` is part of a cascade of `p`. -/
theorem weaken {q : Nat} (h : Cascade q cy cy') (hq : q ∈ cy.topicsBySubjectId)
    (hr : cy.rankOf q ≤ cy.rankOf p) : Cascade p cy cy' := fun r hr' ↦ by
  obtain ⟨hm, hle⟩ := h r hr'
  exact ⟨.inr (hm.elim (fun e ↦ e ▸ hq) id), hle.trans hr⟩

theorem trans (h₁ : Cascade p cy c) (h₂ : Cascade p c cy') (hm : Moves cy c)
    (hs : ∀ q ∈ c.topicsBySubjectId, q = p ∨ q ∈ cy.topicsBySubjectId) : Cascade p cy cy' :=
  fun q hq ↦ by
    by_cases h : (c.topics q).evictions = (cy.topics q).evictions
    · obtain ⟨hm', hle⟩ := h₂ q (h ▸ hq)
      rw [hm.rankOf, hm.rankOf] at hle
      exact ⟨hm'.elim .inl (hs q), hle⟩
    · exact h₁ q h

end Cascade

/-! ## The shape of the indices during an allocation -/

/-- Both search trees are valid, the gossip index has no duplicates, and the subject-ID index
holds only topics of the gossip index. -/
structure AllocInv (cy : Node) : Prop where
  subject_sorted : Index.Sorted (· < ·) cy.subjectIdOf cy.topicsBySubjectId
  gossip_sorted : Index.Sorted (· ≤ ·) cy.lastGossipOf cy.topicsByGossipTime
  gossip_nodup : cy.topicsByGossipTime.Nodup
  subject_sub : ∀ q ∈ cy.topicsBySubjectId, q ∈ cy.topicsByGossipTime

theorem subjectIdOf_modifyTopic {cy : Node} {p q : Nat} {f : Topic → Topic} (h : q ≠ p) :
    (cy.modifyTopic p f).subjectIdOf q = cy.subjectIdOf q := by
  simp [Node.subjectIdOf, h]

/-- Changing a topic without touching gossip times keeps both indices valid, if the topic is
outside the subject-ID index or keeps its hash and eviction counter. -/
theorem AllocInv.modifyTopic {cy : Node} (h : AllocInv cy) {p : Nat} {f : Topic → Topic}
    (hp : p ∉ cy.topicsBySubjectId ∨ ∀ t, (f t).hash = t.hash ∧ (f t).evictions = t.evictions)
    (hf : ∀ t, (f t).lastGossip = t.lastGossip) :
    AllocInv (cy.modifyTopic p f) where
  subject_sorted := h.subject_sorted.congr fun q hq ↦ by
    by_cases hqp : q = p
    · subst hqp
      rcases hp with hp | hp
      · exact absurd hq hp
      · simp [Node.subjectIdOf, (hp _).1, (hp _).2]
    · exact subjectIdOf_modifyTopic hqp
  gossip_sorted := h.gossip_sorted.congr fun q _ ↦ by
    simp only [Node.lastGossipOf, Node.modifyTopic_topics]; split <;> simp_all
  gossip_nodup := h.gossip_nodup
  subject_sub := h.subject_sub

/-! ## Gossip scheduling -/

section Gossip

variable {cy : Node} {p : Nat}

theorem updateLastGossipTime_moves (hp : p ∈ cy.topicsByGossipTime) (ts : Int) :
    Moves cy (cy.updateLastGossipTime p ts) := by
  refine ⟨?_, ?_⟩
  · have h : Moves { cy with topicsByGossipTime := cy.topicsByGossipTime.erase p }
        ({ cy with topicsByGossipTime := cy.topicsByGossipTime.erase p }.modifyTopic p
          fun t ↦ { t with lastGossip := ts }) := Moves.modifyTopic fun _ ↦ rfl
    exact h.fixed_eq
  · exact (Index.findOrInsert_stableCmp _ _ _).2.trans (List.perm_cons_erase hp).symm

theorem updateLastGossipTime_topicsBySubjectId (ts : Int) :
    (cy.updateLastGossipTime p ts).topicsBySubjectId = cy.topicsBySubjectId := rfl

theorem updateLastGossipTime_subjectIdOf (ts : Int) (q : Nat) :
    (cy.updateLastGossipTime p ts).subjectIdOf q = cy.subjectIdOf q := by
  simp only [Node.updateLastGossipTime, Node.subjectIdOf, Node.modifyTopic_topics]
  split <;> simp_all

theorem AllocInv.updateLastGossipTime (h : AllocInv cy) (hp : p ∈ cy.topicsByGossipTime)
    (ts : Int) : AllocInv (cy.updateLastGossipTime p ts) := by
  have hm := updateLastGossipTime_moves hp ts
  have hnd : p ∉ cy.topicsByGossipTime.erase p := h.gossip_nodup.not_mem_erase
  refine ⟨?_, ?_, hm.gossip_perm.nodup_iff.2 h.gossip_nodup, fun q hq ↦ ?_⟩
  · rw [updateLastGossipTime_topicsBySubjectId]
    exact h.subject_sorted.congr fun q _ ↦ updateLastGossipTime_subjectIdOf ts q
  · refine Index.sorted_findOrInsert_stableCmp
      (by simp [Node.lastGossipOf, Node.updateLastGossipTime]) ?_
    exact (h.gossip_sorted.erase p).congr fun q hq ↦ by
      simp [Node.lastGossipOf, Node.updateLastGossipTime,
        Node.modifyTopic_topics_of_ne (ne_of_mem_of_not_mem hq hnd)]
  · rw [updateLastGossipTime_topicsBySubjectId] at hq
    exact hm.gossip_perm.mem_iff.2 (h.subject_sub q hq)

theorem scheduleGossipAsap_moves (hp : p ∈ cy.topicsByGossipTime) :
    Moves cy (cy.scheduleGossipAsap p) := by
  unfold Node.scheduleGossipAsap
  split
  · exact updateLastGossipTime_moves hp _
  · exact .refl _

theorem AllocInv.scheduleGossipAsap (h : AllocInv cy) (hp : p ∈ cy.topicsByGossipTime) :
    AllocInv (cy.scheduleGossipAsap p) := by
  unfold Node.scheduleGossipAsap
  split
  · exact h.updateLastGossipTime hp _
  · exact h

theorem scheduleGossipAsap_topicsBySubjectId :
    (cy.scheduleGossipAsap p).topicsBySubjectId = cy.topicsBySubjectId := by
  unfold Node.scheduleGossipAsap; split <;> rfl

end Gossip

/-! ## The probing loop -/

/-- What one iteration of the probing loop can do, for a topic outside the subject-ID index:
insert it into a free slot; reallocate a tenant it outranks and probe again; or take one more
eviction and probe again. -/
theorem probe_succ_cases {rec : Node → Nat → Option Node} {p n : Nat} {cy cy' : Node}
    (hp : p ∉ cy.topicsBySubjectId) (h : probe rec p (n + 1) cy = some cy') :
    (Index.find (Index.keyCmp cy.subjectIdOf (cy.subjectIdOf p)) cy.topicsBySubjectId = none ∧
      cy' = { cy with topicsBySubjectId := (Index.findOrInsert
        (Index.keyCmp cy.subjectIdOf (cy.subjectIdOf p)) p cy.topicsBySubjectId).2 }) ∨
    ∃ q, Index.find (Index.keyCmp cy.subjectIdOf (cy.subjectIdOf p)) cy.topicsBySubjectId =
        some q ∧
      ((leftWins (cy.topics p).age (cy.topics p).hash (cy.topics q).age (cy.topics q).hash ∧
          ∃ c, rec cy q = some c ∧ probe rec p n c = some cy') ∨
        (leftWins (cy.topics p).age (cy.topics p).hash (cy.topics q).age (cy.topics q).hash =
            false ∧
          probe rec p n (cy.modifyTopic p fun t ↦ { t with evictions := t.evictions + 1 }) =
            some cy')) := by
  simp only [probe] at h
  split_ifs at h with h1 h2
  · exact .inl ⟨Index.find_eq_none_of_findOrInsert hp h1, (Option.some.inj h).symm⟩
  · exact .inr ⟨_, (Index.findOrInsert_of_ne h1).1, .inl ⟨h2, Option.bind_eq_some.1 h⟩⟩
  · exact .inr ⟨_, (Index.findOrInsert_of_ne h1).1, .inr ⟨by simpa using h2, h⟩⟩

/-- What a call of `allocate_topic` for a tenant of the subject-ID index promises. -/
def RecSpec (rec : Node → Nat → Option Node) : Prop :=
  ∀ c q c', AllocInv c → q ∈ c.topicsBySubjectId → rec c q = some c' →
    AllocInv c' ∧ Moves c c' ∧ c'.topicsBySubjectId.Perm c.topicsBySubjectId ∧ Cascade q c c'

/-- **The probing loop inserts its topic and keeps both indices valid**, and every topic it
moves on the way ranks no higher than the topic. -/
theorem probe_spec {rec : Node → Nat → Option Node} {p : Nat} (hrec : RecSpec rec) :
    ∀ n cy cy', AllocInv cy → p ∉ cy.topicsBySubjectId → p ∈ cy.topicsByGossipTime →
      probe rec p n cy = some cy' →
      AllocInv cy' ∧ Moves cy cy' ∧ cy'.topicsBySubjectId.Perm (p :: cy.topicsBySubjectId) ∧
        Cascade p cy cy'
  | 0, _, _, _, _, _, h => by cases h
  | n + 1, cy, cy', hi, hpS, hpG, h => by
    rcases probe_succ_cases hpS h with ⟨hn, rfl⟩ | ⟨q, hf, ⟨hw, c, hc, hrest⟩ | ⟨-, hrest⟩⟩
    · -- the slot is free: insert
      obtain ⟨-, hperm⟩ := Index.findOrInsert_of_find_none (n := p) hn
      refine ⟨⟨Index.sorted_findOrInsert_keyCmp rfl hi.subject_sorted hn, hi.gossip_sorted,
        hi.gossip_nodup, fun q hq ↦ ?_⟩, ⟨rfl, .refl _⟩, hperm, .of_evictions fun _ _ ↦ rfl⟩
      rcases List.mem_cons.1 (hperm.mem_iff.1 hq) with rfl | hq
      · exact hpG
      · exact hi.subject_sub q hq
    · -- the tenant loses: it is reallocated and the same subject-ID is probed again
      have hq := Index.find_mem hf
      obtain ⟨hic, hmc, hpc, hcc⟩ := hrec cy q c hi hq hc
      obtain ⟨hi', hm', hp', hc'⟩ := probe_spec hrec n c cy' hic (fun h ↦ hpS (hpc.mem_iff.1 h))
        (hmc.gossip_perm.mem_iff.2 hpG) hrest
      have hr : cy.rankOf q ≤ cy.rankOf p := le_of_lt ((leftWins_iff_rank_lt _ _ _ _).1 hw)
      exact ⟨hi', hmc.trans hm', hp'.trans (hpc.cons p),
        (hcc.weaken hq hr).trans hc' hmc fun _ h ↦ .inr (hpc.mem_iff.1 h)⟩
    · -- the topic loses: one more eviction
      have hm : Moves cy (cy.modifyTopic p fun t ↦ { t with evictions := t.evictions + 1 }) :=
        Moves.modifyTopic fun _ ↦ rfl
      obtain ⟨hi', hm', hp', hc'⟩ := probe_spec hrec n _ cy'
        (hi.modifyTopic (f := fun t ↦ { t with evictions := t.evictions + 1 }) (.inl hpS)
          fun _ ↦ rfl) hpS hpG hrest
      exact ⟨hi', hm.trans hm', hp',
        (Cascade.of_evictions fun q hq ↦ by simp [hq]).trans hc' hm fun _ h ↦ .inr h⟩

/-- **A topic that outranks every tenant of its slot keeps its eviction counter.** Each tenant
is reallocated, and whoever takes the slot during that cascade was pushed there by a topic
ranked below the probing one: in the words of `allocate_topic`, "we know that the new squatter
will lose arbitration to us again". -/
theorem probe_evictions_of_outranks {rec : Node → Nat → Option Node} {p : Nat}
    (hrec : RecSpec rec) :
    ∀ n cy cy', AllocInv cy → p ∉ cy.topicsBySubjectId → p ∈ cy.topicsByGossipTime →
      (∀ q ∈ cy.topicsBySubjectId, cy.subjectIdOf q = cy.subjectIdOf p →
        cy.rankOf q < cy.rankOf p) →
      probe rec p n cy = some cy' → (cy'.topics p).evictions = (cy.topics p).evictions
  | 0, _, _, _, _, _, _, h => by cases h
  | n + 1, cy, cy', hi, hpS, hpG, hlow, h => by
    have hten : ∀ {q}, Index.find (Index.keyCmp cy.subjectIdOf (cy.subjectIdOf p))
        cy.topicsBySubjectId = some q → cy.rankOf q < cy.rankOf p := fun hf ↦
      hlow _ (Index.find_mem hf) (Index.keyCmp_eq_eq.1 (Index.find_cmp hf))
    rcases probe_succ_cases hpS h with ⟨-, rfl⟩ | ⟨q, hf, ⟨-, c, hc, hrest⟩ | ⟨hl, -⟩⟩
    · rfl
    · obtain ⟨hic, hmc, hpc, hcc⟩ := hrec cy q c hi (Index.find_mem hf) hc
      -- `p` is outside the index, so the tenant's cascade leaves its counter alone
      have hp : (c.topics p).evictions = (cy.topics p).evictions := by
        by_contra hne
        rcases (hcc p hne).1 with e | hm
        · exact hpS (e ▸ Index.find_mem hf)
        · exact hpS hm
      have hsid : ∀ r, (c.topics r).evictions = (cy.topics r).evictions →
          c.subjectIdOf r = cy.subjectIdOf r := fun r he ↦ by
        simp only [Node.subjectIdOf, hmc.hash, he]
      rw [probe_evictions_of_outranks hrec n c cy' hic (fun h ↦ hpS (hpc.mem_iff.1 h))
        (hmc.gossip_perm.mem_iff.2 hpG) ?_ hrest, hp]
      intro r hr hrs
      rw [hmc.rankOf, hmc.rankOf]
      by_cases he : (c.topics r).evictions = (cy.topics r).evictions
      · -- a tenant from before the cascade
        rw [hsid r he, hsid p hp] at hrs
        exact hlow r (hpc.mem_iff.1 hr) hrs
      · -- moved by the cascade of `q`, which ranks below `p`
        exact lt_of_le_of_lt (hcc r he).2 (hten hf)
    · exact (Bool.false_ne_true (hl.symm.trans ((leftWins_iff_rank_lt _ _ _ _).2 (hten hf)))).elim

/-- A topic whose subject-ID is free takes it at the first iteration. -/
theorem probe_of_free {rec : Node → Nat → Option Node} {p n : Nat} {cy : Node}
    (hn : Index.find (Index.keyCmp cy.subjectIdOf (cy.subjectIdOf p)) cy.topicsBySubjectId =
      none) :
    probe rec p (n + 1) cy = some { cy with topicsBySubjectId :=
      (Index.findOrInsert (Index.keyCmp cy.subjectIdOf (cy.subjectIdOf p)) p
        cy.topicsBySubjectId).2 } := by
  simp only [probe]
  rw [if_pos (Index.findOrInsert_of_find_none hn).1]

/-! ## The frame of an allocation -/

/-- The node without its topic objects and the two indices an allocation rebuilds: everything an
allocation leaves alone, whatever state it starts from. -/
def Node.frame (cy : Node) : Node :=
  { cy with topics := fun _ ↦ .zero, topicsBySubjectId := [], topicsByGossipTime := [] }

@[simp] theorem Node.frame_modifyTopic (cy : Node) (p : Nat) (f : Topic → Topic) :
    (cy.modifyTopic p f).frame = cy.frame := rfl

@[simp] theorem Node.frame_scheduleGossipAsap (cy : Node) (p : Nat) :
    (cy.scheduleGossipAsap p).frame = cy.frame := by
  unfold Node.scheduleGossipAsap; split <;> rfl

/-- The probing loop keeps every view of the node that ignores the subject-ID index and the
eviction counters and that the recursive allocations keep. -/
theorem probe_view {γ : Type} (V : Node → γ) {rec : Node → Nat → Option Node}
    (hrec : ∀ c q c', rec c q = some c' → V c' = V c)
    (hidx : ∀ (c : Node) (l : List Nat), V { c with topicsBySubjectId := l } = V c)
    (hev : ∀ (c : Node) (q : Nat),
      V (c.modifyTopic q fun t ↦ { t with evictions := t.evictions + 1 }) = V c) {p : Nat} :
    ∀ {n : Nat} {cy cy' : Node}, probe rec p n cy = some cy' → V cy' = V cy
  | 0, _, _, h => by cases h
  | n + 1, cy, cy', h => by
    simp only [probe] at h
    split_ifs at h
    · cases h; exact hidx _ _
    · obtain ⟨c, hc, h⟩ := Option.bind_eq_some.1 h
      rw [probe_view V hrec hidx hev h, hrec _ _ _ hc]
    · rw [probe_view V hrec hidx hev h, hev]

theorem frame_probe {rec : Node → Nat → Option Node}
    (hrec : ∀ c q c', rec c q = some c' → c'.frame = c.frame) {p : Nat} :
    ∀ {n : Nat} {cy cy' : Node}, probe rec p n cy = some cy' → cy'.frame = cy.frame :=
  probe_view Node.frame hrec (fun _ _ ↦ rfl) (fun _ _ ↦ rfl)

/-- **An allocation keeps every view of the node that its steps keep**, from every node: a view
that ignores the subject-ID index, and that `schedule_gossip_asap` and the changes of one topic
that `Moves` allows leave alone. -/
theorem allocateTopic_view {γ : Type} (V : Node → γ)
    (hmod : ∀ (c : Node) (q : Nat) (f : Topic → Topic), (∀ t, (f t).fixed = t.fixed) →
      V (c.modifyTopic q f) = V c)
    (hidx : ∀ (c : Node) (l : List Nat), V { c with topicsBySubjectId := l } = V c)
    (hsched : ∀ (c : Node) (q : Nat), V (c.scheduleGossipAsap q) = V c)
    (subscribeOk : Nat → Bool) :
    ∀ {d : Nat} {cy : Node} {p : Nat} {e : BitVec 64} {virgin : Bool} {cy' : Node},
      allocateTopic subscribeOk d cy p e virgin = some cy' → V cy' = V cy
  | 0, _, _, _, _, _, h => by cases h
  | d + 1, cy, p, e, virgin, cy', h => by
    simp only [allocateTopic, Option.map_eq_some'] at h
    obtain ⟨cy4, h4, rfl⟩ := h
    have h4' := probe_view V (fun c q c' hc ↦ allocateTopic_view V hmod hidx hsched subscribeOk hc)
      hidx (fun c q ↦ hmod c q _ (by intro; rfl)) h4
    refine Eq.trans ?_ (h4'.trans ((hmod _ _ _ (by intro; rfl)).trans ?_))
    · split
      · exact hsched _ _
      · exact (hmod _ _ _ (by intro; rfl)).trans (hsched _ _)
    · cases virgin
      · exact (hidx _ _).trans (hmod _ _ _ (by intro; rfl))
      · rw [if_pos rfl]; exact hmod _ _ _ (by intro; rfl)

/-- **An allocation changes nothing outside the topics and the two indices it rebuilds**, from
every node. -/
theorem frame_allocateTopic (subscribeOk : Nat → Bool) {d : Nat} {cy : Node} {p : Nat}
    {e : BitVec 64} {virgin : Bool} {cy' : Node}
    (h : allocateTopic subscribeOk d cy p e virgin = some cy') : cy'.frame = cy.frame :=
  allocateTopic_view Node.frame (fun _ _ _ _ ↦ rfl) (fun _ _ ↦ rfl) Node.frame_scheduleGossipAsap
    subscribeOk h

/-! ## The allocation -/

/-- The node the probing loop of `allocate_topic` starts from: the topic unsubscribed, out of the
subject-ID index unless it is new, with its new eviction counter. -/
def allocPrologue (cy : Node) (p : Nat) (e : BitVec 64) (virgin : Bool) : Node :=
  let cy1 := cy.modifyTopic p fun t ↦ { t with subscribed := false }
  let cy2 := if virgin then cy1
    else { cy1 with topicsBySubjectId := cy1.topicsBySubjectId.erase p }
  cy2.modifyTopic p fun t ↦ { t with evictions := e }

/-- What `allocate_topic` does once the probing loop has placed the topic: schedule it for
gossip, then resubscribe it if anyone listens. -/
def allocEpilogue (subscribeOk : Nat → Bool) (p : Nat) (cy4 : Node) : Node :=
  let cy5 := cy4.scheduleGossipAsap p
  if (cy5.topics p).subList = none then cy5
  else cy5.modifyTopic p fun t ↦ { t with subscribed := subscribeOk p }

/-- `allocate_topic` is its prologue, the probing loop and its epilogue. -/
theorem allocateTopic_succ (subscribeOk : Nat → Bool) (d : Nat) (cy : Node) (p : Nat)
    (e : BitVec 64) (virgin : Bool) :
    allocateTopic subscribeOk (d + 1) cy p e virgin =
      (probe (fun c q ↦ allocateTopic subscribeOk d c q ((c.topics q).evictions + 1) false) p
        ((allocPrologue cy p e virgin).topicCount + 1) (allocPrologue cy p e virgin)).map
        (allocEpilogue subscribeOk p) := rfl

@[simp] theorem allocPrologue_topicCount (cy : Node) (p : Nat) (e : BitVec 64) (virgin : Bool) :
    (allocPrologue cy p e virgin).topicCount = cy.topicCount := by
  cases virgin <;> simp [allocPrologue]

@[simp] theorem allocPrologue_topics_of_ne {cy : Node} {p q : Nat} (e : BitVec 64) (virgin : Bool)
    (h : q ≠ p) : (allocPrologue cy p e virgin).topics q = cy.topics q := by
  cases virgin <;> simp [allocPrologue, h]

@[simp] theorem allocPrologue_topics_self (cy : Node) (p : Nat) (e : BitVec 64) (virgin : Bool) :
    (allocPrologue cy p e virgin).topics p =
      { cy.topics p with subscribed := false, evictions := e } := by
  cases virgin <;> simp [allocPrologue]

@[simp] theorem allocPrologue_topicsBySubjectId (cy : Node) (p : Nat) (e : BitVec 64)
    (virgin : Bool) : (allocPrologue cy p e virgin).topicsBySubjectId =
      if virgin then cy.topicsBySubjectId else cy.topicsBySubjectId.erase p := by
  cases virgin <;> simp [allocPrologue]

@[simp] theorem allocPrologue_topicsByHash (cy : Node) (p : Nat) (e : BitVec 64) (virgin : Bool) :
    (allocPrologue cy p e virgin).topicsByHash = cy.topicsByHash := by
  cases virgin <;> simp [allocPrologue]

@[simp] theorem allocPrologue_subs (cy : Node) (p : Nat) (e : BitVec 64) (virgin : Bool) :
    (allocPrologue cy p e virgin).subs = cy.subs := by
  cases virgin <;> simp [allocPrologue]

@[simp] theorem allocEpilogue_frame (subscribeOk : Nat → Bool) (p : Nat) (cy : Node) :
    (allocEpilogue subscribeOk p cy).frame = cy.frame := by
  simp only [allocEpilogue]; split <;> simp

@[simp] theorem allocEpilogue_topicsBySubjectId (subscribeOk : Nat → Bool) (p : Nat) (cy : Node) :
    (allocEpilogue subscribeOk p cy).topicsBySubjectId = cy.topicsBySubjectId := by
  simp only [allocEpilogue]; split <;> simp [scheduleGossipAsap_topicsBySubjectId]

@[simp] theorem allocEpilogue_topicsByHash (subscribeOk : Nat → Bool) (p : Nat) (cy : Node) :
    (allocEpilogue subscribeOk p cy).topicsByHash = cy.topicsByHash :=
  have h := congrArg Node.topicsByHash (allocEpilogue_frame subscribeOk p cy)
  h

@[simp] theorem allocEpilogue_topicCount (subscribeOk : Nat → Bool) (p : Nat) (cy : Node) :
    (allocEpilogue subscribeOk p cy).topicCount = cy.topicCount :=
  have h := congrArg Node.topicCount (allocEpilogue_frame subscribeOk p cy)
  h

@[simp] theorem allocEpilogue_subs (subscribeOk : Nat → Bool) (p : Nat) (cy : Node) :
    (allocEpilogue subscribeOk p cy).subs = cy.subs :=
  have h := congrArg Node.subs (allocEpilogue_frame subscribeOk p cy)
  h

/-- The prologue of `allocate_topic`: unsubscribe, leave the subject-ID index unless the topic is
new, and take the new eviction counter. -/
theorem allocate_prologue {cy : Node} {p : Nat} {e : BitVec 64} {virgin : Bool} (hi : AllocInv cy)
    (hpS : if virgin then p ∉ cy.topicsBySubjectId else p ∈ cy.topicsBySubjectId) :
    AllocInv (allocPrologue cy p e virgin) ∧ Moves cy (allocPrologue cy p e virgin) ∧
      p ∉ (allocPrologue cy p e virgin).topicsBySubjectId ∧
      (p :: (allocPrologue cy p e virgin).topicsBySubjectId).Perm
        (if virgin then p :: cy.topicsBySubjectId else cy.topicsBySubjectId) ∧
      (∀ q ≠ p, (allocPrologue cy p e virgin).topics q = cy.topics q) ∧
      ((allocPrologue cy p e virgin).topics p).evictions = e := by
  set cy1 := cy.modifyTopic p fun t ↦ { t with subscribed := false }
  set cy2 := if virgin then cy1
    else { cy1 with topicsBySubjectId := cy1.topicsBySubjectId.erase p }
  have hcy3 : allocPrologue cy p e virgin = cy2.modifyTopic p fun t ↦ { t with evictions := e } :=
    rfl
  rw [hcy3]
  have hi1 : AllocInv cy1 := hi.modifyTopic (.inr fun _ ↦ ⟨rfl, rfl⟩) fun _ ↦ rfl
  have h2 : AllocInv cy2 ∧ Moves cy1 cy2 ∧ p ∉ cy2.topicsBySubjectId ∧
      (p :: cy2.topicsBySubjectId).Perm
        (if virgin then p :: cy.topicsBySubjectId else cy.topicsBySubjectId) ∧
      cy2.topics = cy1.topics := by
    simp only [cy2]
    cases virgin
    · simp only [if_false, Bool.false_eq_true] at hpS ⊢
      exact ⟨⟨hi1.subject_sorted.erase p, hi1.gossip_sorted, hi1.gossip_nodup,
        fun q hq ↦ hi1.subject_sub q (List.mem_of_mem_erase hq)⟩, ⟨rfl, .refl _⟩,
        hi1.subject_sorted.nodup.not_mem_erase, (List.perm_cons_erase hpS).symm, trivial⟩
    · simp only [if_true] at hpS ⊢
      exact ⟨hi1, .refl _, hpS, .refl _, trivial⟩
  obtain ⟨hi2, hm2, hp2, hperm2, ht2⟩ := h2
  have hm1 : Moves cy cy1 := Moves.modifyTopic fun _ ↦ rfl
  have hm3 : Moves cy2 (cy2.modifyTopic p fun t ↦ { t with evictions := e }) :=
    Moves.modifyTopic fun _ ↦ rfl
  refine ⟨hi2.modifyTopic (.inl hp2) fun _ ↦ rfl, hm1.trans (hm2.trans hm3), hp2, hperm2,
    fun q hq ↦ ?_, by simp⟩
  simp [cy1, ht2, hq]

/-- The epilogue of `allocate_topic` changes no eviction counter and leaves the subject-ID
index alone. -/
theorem allocate_epilogue {cy : Node} {p : Nat} (hi : AllocInv cy) (hp : p ∈ cy.topicsByGossipTime)
    (subscribeOk : Nat → Bool) :
    AllocInv (allocEpilogue subscribeOk p cy) ∧ Moves cy (allocEpilogue subscribeOk p cy) ∧
      (allocEpilogue subscribeOk p cy).topicsBySubjectId = cy.topicsBySubjectId ∧
      ∀ q, ((allocEpilogue subscribeOk p cy).topics q).evictions = (cy.topics q).evictions := by
  have hi5 := hi.scheduleGossipAsap hp
  have hm5 := scheduleGossipAsap_moves hp
  simp only [allocEpilogue]
  by_cases hs : ((cy.scheduleGossipAsap p).topics p).subList = none
  · rw [if_pos hs]; exact ⟨hi5, hm5, scheduleGossipAsap_topicsBySubjectId, fun q ↦ by simp⟩
  · rw [if_neg hs]
    refine ⟨hi5.modifyTopic (.inr fun _ ↦ ⟨rfl, rfl⟩) (fun _ ↦ rfl),
      hm5.trans (Moves.modifyTopic fun _ ↦ rfl), scheduleGossipAsap_topicsBySubjectId,
      fun q ↦ ?_⟩
    simp only [Node.modifyTopic_topics]; split <;> simp [*]

/-- **An allocation that returns keeps both indices valid**, changes only what `Moves` allows,
leaves the subject-ID index with the same topics, plus the topic itself when it is new, and moves
no topic that ranks above it. -/
theorem allocateTopic_spec (subscribeOk : Nat → Bool) :
    ∀ d cy p e virgin cy', AllocInv cy → p ∈ cy.topicsByGossipTime →
      (if virgin then p ∉ cy.topicsBySubjectId else p ∈ cy.topicsBySubjectId) →
      allocateTopic subscribeOk d cy p e virgin = some cy' →
      AllocInv cy' ∧ Moves cy cy' ∧
        cy'.topicsBySubjectId.Perm (if virgin then p :: cy.topicsBySubjectId
          else cy.topicsBySubjectId) ∧ Cascade p cy cy'
  | 0, _, _, _, _, _, _, _, _, h => by simp [allocateTopic] at h
  | d + 1, cy, p, e, virgin, cy', hi, hpG, hpS, h => by
    rw [allocateTopic_succ, Option.map_eq_some'] at h
    obtain ⟨cy4, h4, rfl⟩ := h
    obtain ⟨hi3, hm3, hp3, hperm3, hoff, -⟩ := allocate_prologue (e := e) hi hpS
    -- the probing loop, whose recursive calls are allocations of tenants
    have hrec :
        RecSpec fun c q ↦ allocateTopic subscribeOk d c q ((c.topics q).evictions + 1) false :=
      fun c q c' hic hq hc ↦ allocateTopic_spec subscribeOk d c q _ false c' hic
        (hic.subject_sub q hq) hq hc
    obtain ⟨hi4, hm4, hp4, hc4⟩ := probe_spec hrec _ _ cy4 hi3 hp3
      (hm3.gossip_perm.mem_iff.2 hpG) h4
    obtain ⟨hi6, hm6, hs6, he6⟩ := allocate_epilogue hi4
      ((hm3.trans hm4).gossip_perm.mem_iff.2 hpG) subscribeOk
    refine ⟨hi6, hm3.trans (hm4.trans hm6), hs6 ▸ hp4.trans hperm3,
      (((Cascade.of_evictions fun q hq ↦ by rw [hoff q hq]).trans hc4 hm3 fun q hq ↦ ?_)
        |>.of_evictions_eq_right he6)⟩
    have := hperm3.mem_iff.1 (List.mem_cons_of_mem p hq)
    split at this
    · exact List.mem_cons.1 this
    · exact .inr this

theorem allocateTopic_recSpec (subscribeOk : Nat → Bool) (d : Nat) :
    RecSpec fun c q ↦ allocateTopic subscribeOk d c q ((c.topics q).evictions + 1) false :=
  fun c q c' hic hq hc ↦ allocateTopic_spec subscribeOk d c q _ false c' hic
    (hic.subject_sub q hq) hq hc

/-! ## Reallocating a topic that outranks its new slot -/

section Outranks

variable (subscribeOk : Nat → Bool) {d : Nat} {cy : Node} {p : Nat} {e : BitVec 64}

/-- **A reallocation to a slot whose tenants all rank below the topic lands there**: the topic
ends with the eviction counter it was given. -/
theorem allocateTopic_evictions_of_outranks {cy' : Node} (hi : AllocInv cy)
    (hpS : p ∈ cy.topicsBySubjectId) (hpG : p ∈ cy.topicsByGossipTime)
    (hlow : ∀ q ∈ cy.topicsBySubjectId, q ≠ p →
      cy.subjectIdOf q = topicGetSubjectId (cy.topics p).hash e → cy.rankOf q < cy.rankOf p)
    (h : allocateTopic subscribeOk d cy p e false = some cy') : (cy'.topics p).evictions = e := by
  cases d with
  | zero => cases h
  | succ d =>
    rw [allocateTopic_succ, Option.map_eq_some'] at h
    obtain ⟨cy4, h4, rfl⟩ := h
    obtain ⟨hi3, hm3, hp3, hperm3, hoff, he3⟩ := @allocate_prologue cy p e false hi hpS
    have hG3 := hm3.gossip_perm.mem_iff.2 hpG
    obtain ⟨hi4, hm4, -, -⟩ :=
      probe_spec (allocateTopic_recSpec subscribeOk d) _ _ cy4 hi3 hp3 hG3 h4
    obtain ⟨-, -, -, he6⟩ := allocate_epilogue hi4 (hm4.gossip_perm.mem_iff.2 hG3) subscribeOk
    rw [he6, probe_evictions_of_outranks (allocateTopic_recSpec subscribeOk d) _ _ cy4 hi3 hp3 hG3
      ?_ h4, he3]
    intro q hq hqs
    have hqp : q ≠ p := ne_of_mem_of_not_mem hq hp3
    rw [hm3.rankOf, hm3.rankOf]
    refine hlow q (by simpa using hperm3.mem_iff.1 (List.mem_cons_of_mem p hq)) hqp ?_
    simp only [Node.subjectIdOf, hoff q hqp, he3, hm3.hash] at hqs
    exact hqs

/-- **A reallocation to a free slot returns.** -/
theorem allocateTopic_of_free (hi : AllocInv cy) (hpS : p ∈ cy.topicsBySubjectId)
    (hfree : ∀ q ∈ cy.topicsBySubjectId, q ≠ p →
      cy.subjectIdOf q ≠ topicGetSubjectId (cy.topics p).hash e) :
    ∃ c, allocateTopic subscribeOk (d + 1) cy p e false = some c := by
  obtain ⟨hi3, hm3, hp3, hperm3, hoff, he3⟩ := @allocate_prologue cy p e false hi hpS
  rw [allocateTopic_succ, probe_of_free ((Index.find_keyCmp_eq_none hi3.subject_sorted).2
    fun q hq ↦ ?_), Option.map_some']
  · exact ⟨_, rfl⟩
  have hqp : q ≠ p := ne_of_mem_of_not_mem hq hp3
  have := hfree q (by simpa using hperm3.mem_iff.1 (List.mem_cons_of_mem p hq)) hqp
  simp only [Node.subjectIdOf, hoff q hqp, he3, hm3.hash]
  exact this

end Outranks

/-! ## How far an allocation moves its topic -/

@[simp] theorem allocEpilogue_evictions (subscribeOk : Nat → Bool) (p : Nat) (cy : Node) (q : Nat) :
    ((allocEpilogue subscribeOk p cy).topics q).evictions = (cy.topics q).evictions := by
  simp only [allocEpilogue]
  split
  · simp
  · simp only [Node.modifyTopic_topics]; split <;> simp [*]

/-- The probing loop gives its topic one eviction per subject-ID it gives up, so fewer than it has
iterations; the cascades of the tenants it displaces leave its counter alone. -/
theorem probe_evictions_lt {rec : Node → Nat → Option Node} {p : Nat} (hrec : RecSpec rec) :
    ∀ n cy cy', AllocInv cy → p ∉ cy.topicsBySubjectId → probe rec p n cy = some cy' →
      ∃ i < n, (cy'.topics p).evictions = (cy.topics p).evictions + BitVec.ofNat 64 i
  | 0, _, _, _, _, h => by cases h
  | n + 1, cy, cy', hi, hpS, h => by
    rcases probe_succ_cases hpS h with ⟨-, rfl⟩ | ⟨q, hf, ⟨-, c, hc, hrest⟩ | ⟨-, hrest⟩⟩
    · exact ⟨0, n.succ_pos, by simp⟩
    · obtain ⟨hic, -, hpc, hcc⟩ := hrec cy q c hi (Index.find_mem hf) hc
      have hp : (c.topics p).evictions = (cy.topics p).evictions := by
        by_contra hne
        rcases (hcc p hne).1 with e | hm
        · exact hpS (e ▸ Index.find_mem hf)
        · exact hpS hm
      obtain ⟨i, hin, he⟩ :=
        probe_evictions_lt hrec n c cy' hic (fun h ↦ hpS (hpc.mem_iff.1 h)) hrest
      exact ⟨i, by omega, he.trans (by rw [hp])⟩
    · obtain ⟨i, hin, he⟩ := probe_evictions_lt hrec n _ cy'
        (hi.modifyTopic (f := fun t ↦ { t with evictions := t.evictions + 1 }) (.inl hpS)
          fun _ ↦ rfl) hpS hrest
      simp only [Node.modifyTopic_topics_self] at he
      exact ⟨i + 1, by omega, by rw [he, add_one_add_ofNat]⟩

/-- **An allocation from counter `e` ends on a counter `e + i` with `i ≤ topic_count`**: the
probing loop runs at most `topic_count + 1` times. -/
theorem allocateTopic_evictions_le (subscribeOk : Nat → Bool) {d : Nat} {cy : Node} {p : Nat}
    {e : BitVec 64} {virgin : Bool} {cy' : Node} (hi : AllocInv cy)
    (hpS : if virgin then p ∉ cy.topicsBySubjectId else p ∈ cy.topicsBySubjectId)
    (h : allocateTopic subscribeOk d cy p e virgin = some cy') :
    ∃ i ≤ cy.topicCount, (cy'.topics p).evictions = e + BitVec.ofNat 64 i := by
  cases d with
  | zero => cases h
  | succ d =>
    rw [allocateTopic_succ, Option.map_eq_some'] at h
    obtain ⟨cy4, h4, rfl⟩ := h
    obtain ⟨hi3, -, hp3, -, -, he3⟩ := allocate_prologue (e := e) hi hpS
    obtain ⟨i, hin, he⟩ := probe_evictions_lt (allocateTopic_recSpec subscribeOk d) _ _ cy4 hi3
      hp3 h4
    rw [allocPrologue_topicCount] at hin
    exact ⟨i, by omega, by rw [allocEpilogue_evictions, he, he3]⟩

/-- A counter moved forward by fewer than `2 ^ 64` increments, and at least one, is another
counter. -/
theorem add_ofNat_ne_self (e : BitVec 64) {j : Nat} (h0 : 0 < j) (hj : j < 2 ^ 64) :
    e + BitVec.ofNat 64 j ≠ e := fun h ↦ by
  have := congrArg BitVec.toNat h
  rw [BitVec.toNat_add, BitVec.toNat_ofNat, Nat.mod_eq_of_lt hj] at this
  have := e.isLt
  omega

/-! ## The recursion depth -/

/-- The topics of the gossip index ranked below `p`. -/
def Node.below (cy : Node) (p : Nat) : Nat :=
  cy.topicsByGossipTime.countP fun q ↦ cy.rankOf q < cy.rankOf p

theorem Moves.below {cy cy' : Node} (h : Moves cy cy') (p : Nat) : cy'.below p = cy.below p := by
  simp only [Node.below, h.rankOf]
  exact h.gossip_perm.countP_eq _

theorem countP_lt_countP {α : Type} {P Q : α → Bool} {x : α} :
    ∀ {l : List α}, (∀ y ∈ l, P y → Q y) → x ∈ l → P x = false → Q x → l.countP P < l.countP Q
  | y :: l, h, hx, hP, hQ => by
    have hle := List.countP_mono_left fun z hz ↦ h z (List.mem_cons_of_mem y hz)
    have hy := h y (List.mem_cons_self y l)
    rw [List.countP_cons, List.countP_cons]
    rcases List.mem_cons.1 hx with rfl | hx
    · simp only [hP, hQ, Bool.false_eq_true, ↓reduceIte]; omega
    · have := countP_lt_countP (fun z hz ↦ h z (List.mem_cons_of_mem y hz)) hx hP hQ
      cases hPy : P y
      · simp only [Bool.false_eq_true, ↓reduceIte]; split <;> omega
      · simp only [hy hPy, ↓reduceIte]; omega

/-- A topic of the gossip index ranked below `p` has fewer topics below it. -/
theorem Node.below_lt {cy : Node} {p q : Nat} (hq : q ∈ cy.topicsByGossipTime)
    (hr : cy.rankOf q < cy.rankOf p) : cy.below q < cy.below p :=
  countP_lt_countP (fun _ _ h ↦ by simp only [decide_eq_true_eq] at h ⊢; omega) hq (by simp)
    (by simpa using hr)

theorem Node.below_lt_length {cy : Node} {p : Nat} (hp : p ∈ cy.topicsByGossipTime) :
    cy.below p < cy.topicsByGossipTime.length := by
  rw [Node.below, List.countP_eq_length_filter, List.length_filter_lt_length_iff_exists]
  exact ⟨p, hp, by simp⟩

/-- Two probing loops whose reallocations agree on every tenant ranked below the topic, from
every node the loop can reach, are one loop. -/
theorem probe_congr {rec rec' : Node → Nat → Option Node} {p : Nat} {c₀ : Node}
    (hrec : RecSpec rec)
    (heq : ∀ c q, AllocInv c → Moves c₀ c → q ∈ c.topicsBySubjectId → c.rankOf q < c.rankOf p →
      rec c q = rec' c q) :
    ∀ n cy, AllocInv cy → Moves c₀ cy → p ∉ cy.topicsBySubjectId → p ∈ cy.topicsByGossipTime →
      probe rec p n cy = probe rec' p n cy
  | 0, _, _, _, _, _ => rfl
  | n + 1, cy, hi, hm, hpS, hpG => by
    simp only [probe]
    split_ifs with h1 h2
    · rfl
    · -- the tenant loses: both loops reallocate it alike
      have hq := Index.find_mem (Index.findOrInsert_of_ne h1).1
      rw [← heq cy _ hi hm hq ((leftWins_iff_rank_lt _ _ _ _).1 h2)]
      cases hc : rec cy _ with
      | none => rfl
      | some c =>
        obtain ⟨hic, hmc, hpc, -⟩ := hrec cy _ c hi hq hc
        exact probe_congr hrec heq n c hic (hm.trans hmc) (fun h ↦ hpS (hpc.mem_iff.1 h))
          (hmc.gossip_perm.mem_iff.2 hpG)
    · -- the topic loses: one more eviction
      exact probe_congr hrec heq n _ (hi.modifyTopic (.inl hpS) fun _ ↦ rfl)
        (hm.trans (Moves.modifyTopic fun _ ↦ rfl)) hpS hpG

/-- **One more level of depth changes nothing once the depth exceeds the number of topics ranked
below the topic**: every nested call reallocates a tenant the topic outranks. -/
theorem allocateTopic_succ_depth (subscribeOk : Nat → Bool) :
    ∀ d cy p e virgin, AllocInv cy → p ∈ cy.topicsByGossipTime →
      (if virgin then p ∉ cy.topicsBySubjectId else p ∈ cy.topicsBySubjectId) → cy.below p < d →
      allocateTopic subscribeOk (d + 1) cy p e virgin = allocateTopic subscribeOk d cy p e virgin
  | 0, _, _, _, _, _, _, _, hd => absurd hd (Nat.not_lt_zero _)
  | d + 1, cy, p, e, virgin, hi, hpG, hpS, hd => by
    rw [allocateTopic_succ, allocateTopic_succ]
    obtain ⟨hi3, hm3, hp3, -, -, -⟩ := allocate_prologue (e := e) hi hpS
    congr 1
    refine probe_congr (allocateTopic_recSpec subscribeOk (d + 1)) (fun c q hic hmc hq hr ↦ ?_)
      _ _ hi3 (.refl _) hp3 (hm3.gossip_perm.mem_iff.2 hpG)
    have hqG := hic.subject_sub q hq
    have hbelow : c.below q < c.below p := Node.below_lt hqG hr
    rw [hmc.below p, hm3.below p] at hbelow
    exact allocateTopic_succ_depth subscribeOk d c q _ false hic hqG hq (by omega)

/-- **The depth `topic_count + 2` the callers pass is sufficient**: for a topic of a gossip index
of at most `topic_count + 1` topics, any more depth gives the same result, so the fuel never
cuts off the recursion of the source. -/
theorem allocateTopic_depth_sufficient (subscribeOk : Nat → Bool) {cy : Node} {p : Nat}
    {e : BitVec 64} {virgin : Bool} (hi : AllocInv cy) (hpG : p ∈ cy.topicsByGossipTime)
    (hpS : if virgin then p ∉ cy.topicsBySubjectId else p ∈ cy.topicsBySubjectId)
    (hlen : cy.topicsByGossipTime.length ≤ cy.topicCount + 1) :
    ∀ extra, allocateTopic subscribeOk (cy.topicCount + 2 + extra) cy p e virgin =
      allocateTopic subscribeOk (cy.topicCount + 2) cy p e virgin
  | 0 => rfl
  | extra + 1 =>
    (allocateTopic_succ_depth subscribeOk (cy.topicCount + 2 + extra) cy p e virgin hi hpG hpS
      (by have := Node.below_lt_length hpG; omega)).trans
      (allocateTopic_depth_sufficient subscribeOk hi hpG hpS hlen extra)

end Cy
