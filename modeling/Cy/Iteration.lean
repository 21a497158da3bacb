import Cy.Identity
import Cy.Tables

/-!
# Iterating over the topics

`cy_topic_iter_first` returns the first topic of the hash index and `cy_topic_iter_next` the one
after a given topic, so the loop that `cy.h` gives as their usage,

    for (t = cy_topic_iter_first(cy); t != NULL; t = cy_topic_iter_next(t)) { ... }

walks the hash index in order. `cy.h` asks that the set of topics not be mutated while iterating
("a restart will be needed otherwise"). The code is more forgiving. `cy_topic_iter_next` reads
the index as the body of the loop left it, and the only call that changes the index,
`cy_topic_new_hint`, inserts a topic and removes none (`Step.kept`).

`IterRun` is the loop as far as it has run, with any sequence of API calls in its body. Along it
the topic the loop holds has a larger hash than every topic visited before, because the successor
in a sorted index is the node with the least larger key (`Index.nextGreater_some`). So no topic is
visited twice, the loop makes at most `CY_TOPIC_SUBJECT_COUNT` iterations whatever its body
does, and when it ends it has visited every topic that was live when it began
(`topicIter_of_run`). A topic created by the body is visited if its hash is above the current
one, and missed otherwise.
-/

namespace Cy

/-- `cy_topic_iter_first`. -/
def topicIterFirst (cy : Node) : Option Nat := Index.min cy.topicsByHash

/-- `cy_topic_iter_next`: `cavl2_next_greater` in the hash index. -/
def topicIterNext (cy : Node) (p : Nat) : Option Nat := Index.nextGreater p cy.topicsByHash

/-- The usage loop of `cy.h` as far as it has run. It began at the node `cy` holding the topic
`t`; it has visited `visited`, the calls of its body have led to the node `cy'`, and it holds
`t'`. The loop has ended when `t'` is `none`. -/
inductive IterRun (env : Env) (cy : Node) (t : Option Nat) :
    List Nat → Node → Option Nat → Prop
  | start : IterRun env cy t [] cy t
  | next {visited : List Nat} {cy₁ cy₂ : Node} {u : Nat} :
      IterRun env cy t visited cy₁ (some u) →
      Relation.ReflTransGen (fun a b ↦ ∃ calls, Step env a calls b) cy₁ cy₂ →
      IterRun env cy t (visited ++ [u]) cy₂ (topicIterNext cy₂ u)

/-- A run of API calls from a reachable node ends in a reachable node, and keeps every live topic
live with its hash. -/
theorem run_kept {env : Env} {cy cy' : Node}
    (h : Relation.ReflTransGen (fun a b ↦ ∃ calls, Step env a calls b) cy cy')
    (hr : Reachable env cy) :
    Reachable env cy' ∧
      ∀ p ∈ cy.topicsByHash, p ∈ cy'.topicsByHash ∧ cy'.hashOf p = cy.hashOf p := by
  induction h with
  | refl => exact ⟨hr, fun p hp ↦ ⟨hp, rfl⟩⟩
  | tail _ hs ih =>
    obtain ⟨calls, hs⟩ := hs
    obtain ⟨-, k⟩ := Step.kept hs
    refine ⟨ih.1.step hs, fun p hp ↦ ?_⟩
    obtain ⟨h₁, h₂⟩ := ih.2 p hp
    obtain ⟨h₁', -, h₃'⟩ := k p h₁
    exact ⟨h₁', (congrArg BitVec.toNat h₃').trans h₂⟩

/-- What holds along a run of the loop begun at the node `cy`: the topics visited are live and
in increasing hash order, the topic held is live and above them all, and every topic live at the
start has been visited or lies at or above the topic held. -/
structure IterInv (env : Env) (cy : Node) (visited : List Nat) (cy' : Node) (t' : Option Nat) :
    Prop where
  reachable : Reachable env cy'
  kept : ∀ p ∈ cy.topicsByHash, p ∈ cy'.topicsByHash
  ascending : visited.Pairwise fun p q ↦ cy'.hashOf p < cy'.hashOf q
  live : ∀ v ∈ visited, v ∈ cy'.topicsByHash
  above : ∀ u, t' = some u → u ∈ cy'.topicsByHash ∧ ∀ v ∈ visited, cy'.hashOf v < cy'.hashOf u
  covers : ∀ p ∈ cy.topicsByHash, p ∈ visited ∨ ∃ u, t' = some u ∧ cy'.hashOf u ≤ cy'.hashOf p

namespace IterInv

variable {env : Env} {cy : Node}

theorem start (hr : Reachable env cy) : IterInv env cy [] cy (topicIterFirst cy) := by
  have hs := (TopicTables.of_reachable hr).hash_sorted
  refine ⟨hr, fun _ ↦ id, .nil, fun _ h ↦ absurd h (List.not_mem_nil _),
    fun u hu ↦ ⟨List.mem_of_mem_head? hu, fun _ h ↦ absurd h (List.not_mem_nil _)⟩,
    fun p hp ↦ .inr ?_⟩
  cases h : topicIterFirst cy with
  | none => exact absurd hp (by rw [List.head?_eq_none_iff.1 h]; exact List.not_mem_nil _)
  | some a => exact ⟨a, rfl, Index.min_le hs h p hp⟩

/-- One iteration: the body's calls, then `cy_topic_iter_next`. -/
theorem next {visited : List Nat} {cy₁ cy₂ : Node} {u : Nat}
    (hi : IterInv env cy visited cy₁ (some u))
    (hb : Relation.ReflTransGen (fun a b ↦ ∃ calls, Step env a calls b) cy₁ cy₂) :
    IterInv env cy (visited ++ [u]) cy₂ (topicIterNext cy₂ u) := by
  obtain ⟨hr₂, hk⟩ := run_kept hb hi.reachable
  obtain ⟨hu, hvu⟩ := hi.above u rfl
  have hs := (TopicTables.of_reachable hr₂).hash_sorted
  have hu₂ := (hk u hu).1
  -- the body keeps the hashes of the topics live before it
  have e : ∀ v ∈ cy₁.topicsByHash, cy₂.hashOf v = cy₁.hashOf v := fun v hv ↦ (hk v hv).2
  refine ⟨hr₂, fun p hp ↦ (hk p (hi.kept p hp)).1, ?_, ?_, fun w hw ↦ ?_, fun p hp ↦ ?_⟩
  · refine List.pairwise_append.2 ⟨hi.ascending.imp_of_mem fun ha hb h ↦ ?_,
      List.pairwise_singleton _ _, fun v hv w hw ↦ ?_⟩
    · rwa [e _ (hi.live _ ha), e _ (hi.live _ hb)]
    · rw [List.mem_singleton.1 hw, e _ (hi.live _ hv), e _ hu]
      exact hvu v hv
  · intro v hv
    rcases List.mem_append.1 hv with hv | hv
    · exact (hk v (hi.live v hv)).1
    · exact List.mem_singleton.1 hv ▸ hu₂
  · obtain ⟨hw₁, hw₂, -⟩ := Index.nextGreater_some hs hu₂ hw
    refine ⟨hw₁, fun v hv ↦ ?_⟩
    rcases List.mem_append.1 hv with hv | hv
    · calc cy₂.hashOf v = cy₁.hashOf v := e v (hi.live v hv)
        _ < cy₁.hashOf u := hvu v hv
        _ = cy₂.hashOf u := (e u hu).symm
        _ < cy₂.hashOf w := hw₂
    · exact List.mem_singleton.1 hv ▸ hw₂
  · rcases hi.covers p hp with hv | ⟨u', hu', hle⟩
    · exact .inl (List.mem_append_left _ hv)
    cases hu'
    have hp₁ := hi.kept p hp
    by_cases hpu : p = u
    · exact .inl (List.mem_append_right _ (List.mem_singleton.2 hpu))
    -- a topic not yet visited lies strictly above the one the body handled
    have hlt : cy₂.hashOf u < cy₂.hashOf p := by
      rw [e u hu, e p hp₁]
      exact lt_of_le_of_ne hle fun h ↦ hpu (Index.eq_of_key_eq
        (TopicTables.of_reachable hi.reachable).hash_sorted hp₁ hu h.symm)
    cases hw : topicIterNext cy₂ u with
    | none => exact absurd (Index.nextGreater_none hs hu₂ hw p (hk p hp₁).1) (not_le.2 hlt)
    | some w => exact .inr ⟨w, rfl, (Index.nextGreater_some hs hu₂ hw).2.2 p (hk p hp₁).1 hlt⟩

theorem of_run (hr : Reachable env cy) {visited : List Nat} {cy' : Node} {t' : Option Nat}
    (hi : IterRun env cy (topicIterFirst cy) visited cy' t') : IterInv env cy visited cy' t' := by
  induction hi with
  | start => exact start hr
  | next _ hb ih => exact ih.next hb

end IterInv

/-- **Iterating over the topics.** Run the usage loop of `cy_topic_iter_first` and
`cy_topic_iter_next` from a reachable node, with a body that may make any API calls, topic
creation included. The loop visits topics in strictly increasing hash order, so none twice; it
makes at most `CY_TOPIC_SUBJECT_COUNT` iterations; and once it has ended it has visited every
topic that was live when it began. -/
theorem topicIter_of_run {env : Env} {cy : Node} (hr : Reachable env cy) {visited : List Nat}
    {cy' : Node} {t' : Option Nat} (hi : IterRun env cy (topicIterFirst cy) visited cy' t') :
    visited.Pairwise (fun p q ↦ cy'.hashOf p < cy'.hashOf q) ∧
      visited.length ≤ topicSubjectCount ∧ (t' = none → ∀ p ∈ cy.topicsByHash, p ∈ visited) := by
  have h := IterInv.of_run hr hi
  have hT := TopicTables.of_reachable h.reachable
  refine ⟨h.ascending, ?_, fun ht p hp ↦ ?_⟩
  · calc visited.length ≤ cy'.topicsByHash.length :=
          ((Index.Sorted.nodup h.ascending).subperm fun v hv ↦ h.live v hv).length_le
      _ = cy'.topicCount := hT.count_eq.symm
      _ ≤ topicSubjectCount := hT.count_le
  · rcases h.covers p hp with hv | ⟨u, hu, -⟩
    · exact hv
    · cases ht ▸ hu

/-- On `canNode`, whose only topic is the heartbeat topic, the loop visits that topic once. -/
theorem topicIter_canNode :
    [0].Pairwise (fun p q ↦ canNode.hashOf p < canNode.hashOf q) ∧
      [0].length ≤ topicSubjectCount ∧
        (topicIterNext canNode 0 = none → ∀ p ∈ canNode.topicsByHash, p ∈ [0]) :=
  topicIter_of_run canNode_reachable (.next (Eq.subst
    (motive := fun t ↦ IterRun Env.can canNode (topicIterFirst canNode) [] canNode t)
    (by decide : topicIterFirst canNode = some 0) .start) .refl)

end Cy
