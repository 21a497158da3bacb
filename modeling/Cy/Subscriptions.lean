import Cy.Creation
import Mathlib.Data.List.Nodup

/-!
# Subscription lists

A topic's subscriptions form a singly linked list through their `next` pointers, from the
topic's `sub_list`. `cy_subscribe_with_transfer_id_timeout` zeroes the subscription object it is
given, walks the list to see whether the object is already in it, and appends it at the end if
not. The API allows the call to be repeated on the same object, "perhaps the user is trying to
recover from a failed resubscription".

## Re-subscribing

Zeroing the object clears its `next` pointer before the walk. For a new object the walk reads
the whole list and the object is appended (`subscribeWithTransferIdTimeout_subList`). For an
object already in the list the walk now stops at it, and the list ends there: every subscription
registered after it is dropped from the topic (`subscribe_again_drops`). Only when it is the last
entry is the list unchanged.

## A moved subscription

The object is zeroed whatever topic it is subscribed to, and nothing removes it from the list it
was in. Subscribed to a second topic, it ends the first topic's list and belongs to the second
(`subscribe_cuts`); the callback loop of `cy_ingest_topic_transfer` asserts that each
subscription in a topic's list belongs to the topic, so every later transfer on the first topic
fails that assertion (`ingestTopicTransfer_after_move`).

## Representation

The list is read through `Chain` (`Cy.State`), which also records that it is acyclic: a chain is
finite by construction. `walkSubs` bounds the walk by fuel; a list of length `n` is read in `n`
steps.

## Every walk ends

Nothing in the C code bounds the walks over `next`; they end because the pointer graph of the
subscription objects has no cycle, which `Acyclic` states: from every head a chain leads to
`NULL`. Only the subscription call writes a `next` pointer. It clears one, which cuts any list
through the object (`Acyclic.clear`), and sets one, on the last entry of a list, to the object
just cleared (`Acyclic.link`); both keep the graph acyclic. So in every reachable node every
walk reads a finite list of distinct subscriptions (`subscriptionLists_of_reachable`). A live
topic has a name, which the call asserts (`TopicNames`), so a subscription to a live topic of a
reachable node returns and appends or truncates as above (`subscribe_of_reachable`).
-/

namespace Cy

/-- **What re-subscribing does to the subscription list.** On a named topic whose list is acyclic
with distinct entries, `cy_subscribe_with_transfer_id_timeout` returns whenever the walk has room
for the list; a new subscription `s` is appended; one already in the list becomes its last entry,
and the subscriptions that followed it are dropped. -/
theorem subscribeWithTransferIdTimeout_subList {cy : Node} {p s extent fuel : Nat}
    {timeout res : Int} {callback : Callback} {L : List Nat} (hn : (cy.topics p).name ≠ [])
    (hL : Chain cy.subs (cy.topics p).subList L) (hnd : L.Nodup) (hfuel : L.length ≤ fuel) :
    ∃ cy' err, subscribeWithTransferIdTimeout cy p s extent timeout callback fuel res =
      some (cy', err) ∧
      ((s ∉ L ∧ Chain cy'.subs (cy'.topics p).subList (L ++ [s])) ∨
        ∃ l₁ l₂, L = l₁ ++ s :: l₂ ∧ Chain cy'.subs (cy'.topics p).subList (l₁ ++ [s])) := by
  set subs1 := Function.update cy.subs s ⟨none, p, callback⟩ with hsubs1
  have hs1 : (subs1 s).next = none := by simp [subs1]
  have hoff : ∀ x, x ≠ s → subs1 x = cy.subs x := fun x hx ↦ Function.update_noteq hx _ _
  by_cases hs : s ∈ L
  · obtain ⟨l₁, l₂, rfl⟩ := List.append_of_mem hs
    have hs₁ : s ∉ l₁ := fun h ↦ (List.nodup_cons.1 (List.nodup_middle.1 hnd)).1
      (List.mem_append_left _ h)
    have hcut : Chain subs1 (cy.topics p).subList (l₁ ++ [s]) :=
      hL.cut hs1 fun x hx ↦ hoff x (ne_of_mem_of_not_mem hx hs₁)
    have hwalk := hcut.walkSubs_eq (n := fuel) (by simp at hfuel ⊢; omega)
    simp only [subscribeWithTransferIdTimeout, if_neg hn, hwalk, Option.map_some']
    refine ⟨_, _, rfl, .inr ⟨l₁, l₂, rfl, ?_⟩⟩
    simp only [List.mem_append, List.mem_singleton, or_true, if_true, Function.update_same]
    split <;> exact hcut
  · have hL1 : Chain subs1 (cy.topics p).subList L :=
      hL.congr fun x hx ↦ hoff x (ne_of_mem_of_not_mem hx hs)
    simp only [subscribeWithTransferIdTimeout, if_neg hn, hL1.walkSubs_eq hfuel, Option.map_some',
      if_neg hs]
    refine ⟨_, _, rfl, .inl ⟨hs, ?_⟩⟩
    rcases List.eq_nil_or_concat L with rfl | ⟨l, last, rfl⟩
    · have hnil : (cy.topics p).subList = none := by
        generalize (cy.topics p).subList = h at hL1; cases hL1; rfl
      simp only [List.getLast?_nil, Function.update_same, List.nil_append]
      have hone : Chain subs1 (some s) [s] := .cons (by rw [hs1]; exact .nil)
      split <;> exact hone
    · rw [List.concat_eq_append] at hL1 hnd hs ⊢
      have hlast : last ∉ l := (List.nodup_append.1 hnd).2.2.symm (List.mem_singleton_self _)
      have happ : Chain (Function.update subs1 last { subs1 last with next := some s })
          (cy.topics p).subList (l ++ [last, s]) :=
        hL1.append (fun x hx ↦ Function.update_noteq (ne_of_mem_of_not_mem hx hlast) _ _)
          (by simp) (by rw [Function.update_noteq fun e ↦ hs (by simp [e]), hs1])
      simp only [List.getLast?_concat, Function.update_same, List.append_assoc,
        List.singleton_append]
      split <;> exact happ


/-! ## Every walk ends -/

namespace Chain

variable {subs : Nat → Subscription}

/-- The chain from an entry is the rest of the chain through it. -/
theorem suffix {a : Nat} : ∀ {head : Option Nat} {l₁ l₂ : List Nat},
    Chain subs head (l₁ ++ a :: l₂) → Chain subs (some a) (a :: l₂)
  | _, [], _, .cons h => .cons h
  | _, _ :: _, _, .cons h => suffix h

/-- A chain visits each subscription once: a repeated entry would make the chain from it longer
than itself. -/
theorem nodup {head : Option Nat} {L : List Nat} (h : Chain subs head L) : L.Nodup := by
  induction h with
  | nil => exact List.nodup_nil
  | @cons s l h ih =>
    refine List.nodup_cons.2 ⟨fun hs ↦ ?_, ih⟩
    obtain ⟨l₁, l₂, rfl⟩ := List.append_of_mem hs
    have := congrArg List.length ((Chain.cons h).unique (suffix h))
    simp only [List.length_cons, List.length_append] at this
    omega

/-- The entries before an entry do not repeat it. -/
theorem not_mem_left {a : Nat} {head : Option Nat} {l₁ l₂ : List Nat}
    (h : Chain subs head (l₁ ++ a :: l₂)) : a ∉ l₁ := fun h' ↦
  (List.nodup_cons.1 (List.nodup_middle.1 h.nodup)).1 (List.mem_append_left _ h')

/-- An entry whose `next` is `NULL` ends the chain. -/
theorem eq_nil_of_next {a : Nat} {head : Option Nat} {l₁ l₂ : List Nat}
    (h : Chain subs head (l₁ ++ a :: l₂)) (ha : (subs a).next = none) : l₂ = [] := by
  cases suffix h with
  | cons h' =>
    rw [ha] at h'
    cases h'; rfl

/-- The last entry of a chain has `next` `NULL`. -/
theorem next_getLast {a : Nat} {head : Option Nat} {l : List Nat}
    (h : Chain subs head (l ++ [a])) : (subs a).next = none := by
  cases suffix h with
  | cons h' =>
    generalize (subs a).next = n at h'
    cases h'; rfl

end Chain

/-- The `next` pointers lead from every head to `NULL`: the pointer graph of the subscription
objects has no cycle. -/
def Acyclic (subs : Nat → Subscription) : Prop := ∀ head, ∃ L, Chain subs head L

namespace Acyclic

variable {subs subs' : Nat → Subscription} {s : Nat}

/-- Clearing the `next` pointer of one object keeps every walk finite: a walk through it now
ends there. -/
theorem clear (h : Acyclic subs) (hs : (subs' s).next = none) (he : ∀ x ≠ s, subs' x = subs x) :
    Acyclic subs' := fun head ↦ by
  obtain ⟨L, hL⟩ := h head
  by_cases hsL : s ∈ L
  · obtain ⟨l₁, l₂, rfl⟩ := List.append_of_mem hsL
    exact ⟨_, hL.cut hs fun x hx ↦ he x (ne_of_mem_of_not_mem hx hL.not_mem_left)⟩
  · exact ⟨L, hL.congr fun x hx ↦ he x (ne_of_mem_of_not_mem hx hsL)⟩

/-- Pointing an object whose `next` is `NULL` at another whose `next` is `NULL` keeps every walk
finite: a walk through the first now ends at the second. -/
theorem link {last : Nat} (h : Acyclic subs) (hl : (subs last).next = none)
    (hs : (subs s).next = none) (hne : s ≠ last) :
    Acyclic (Function.update subs last { subs last with next := some s }) := fun head ↦ by
  obtain ⟨L, hL⟩ := h head
  by_cases hlL : last ∈ L
  · obtain ⟨l₁, l₂, rfl⟩ := List.append_of_mem hlL
    have hl₁ := hL.not_mem_left
    obtain rfl := hL.eq_nil_of_next hl
    exact ⟨l₁ ++ [last, s], hL.append
      (fun x hx ↦ Function.update_noteq (ne_of_mem_of_not_mem hx hl₁) _ _) (by simp)
      (by rw [Function.update_noteq hne, hs])⟩
  · exact ⟨L, hL.congr fun x hx ↦ Function.update_noteq (ne_of_mem_of_not_mem hx hlL) _ _⟩

/-- A subscription object zeroed by `memset` ends every walk that reaches it. -/
theorem zero : Acyclic fun _ ↦ Subscription.zero
  | none => ⟨[], .nil⟩
  | some x => ⟨[x], .cons .nil⟩

variable {cy cy' : Node}

/-- **`cy_subscribe_with_transfer_id_timeout` keeps every walk finite.** It zeroes the object,
which cuts any list through it, and then either leaves the lists or links the object, whose
`next` is now `NULL`, behind the last entry of the topic's list. -/
theorem subscribe {p s extent fuel : Nat} {timeout res err : Int} {callback : Callback}
    (h : Acyclic cy.subs)
    (hs : subscribeWithTransferIdTimeout cy p s extent timeout callback fuel res =
      some (cy', err)) :
    Acyclic cy'.subs := by
  simp only [subscribeWithTransferIdTimeout, Option.ite_none_left_eq_some,
    Option.map_eq_some'] at hs
  obtain ⟨-, l, hw, he⟩ := hs
  rw [← (Prod.mk.inj he).1]
  set subs1 := Function.update cy.subs s ⟨none, p, callback⟩
  have hs1 : (subs1 s).next = none := by simp [subs1]
  have h1 : Acyclic subs1 := h.clear hs1 fun x hx ↦ Function.update_noteq hx _ _
  have hl := chain_of_walkSubs hw
  by_cases hsl : s ∈ l
  · simp only [if_pos hsl]
    exact h1
  · simp only [if_neg hsl]
    rcases List.eq_nil_or_concat l with rfl | ⟨l', last, rfl⟩
    · exact h1
    · rw [List.concat_eq_append] at hl hsl
      have hne : s ≠ last := fun e ↦ hsl (e ▸ List.mem_append_right _ (List.mem_singleton_self _))
      simp only [List.concat_eq_append, List.getLast?_append_of_ne_nil _ (List.cons_ne_nil _ _),
        List.getLast?_singleton]
      exact h1.link hl.next_getLast hs1 hne

theorem step {env : Env} {calls : List Call} (h : Acyclic cy.subs) (hs : Step env cy calls cy') :
    Acyclic cy'.subs := by
  cases hs with
  | topicNewHint hp ht => rwa [(Node.ident_topicNewHint hp ht).1]
  | ingestTopicTransfer _ hi => rwa [Node.subs_eq_of_ident (Node.ident_ingestTopicTransfer hi)]
  | ingestTopicResponseTransfer hi =>
    rwa [Node.subs_eq_of_ident (Node.ident_ingestTopicResponseTransfer hi)]
  | update hu => rwa [Node.subs_eq_of_ident (Node.ident_update hu)]
  | publish _ _ => rwa [Node.subs_eq_of_ident Node.ident_publish]
  | respond => exact h
  | subscribe _ _ hs => exact h.subscribe hs
  | notifyDiscriminatorCollision _ =>
    rwa [Node.subs_eq_of_ident (Node.ident_notifyDiscriminatorCollision _)]
  | notifyNodeIdCollision => exact h

theorem cyNew {env : Env} {uid : BitVec 64} {nodeId : Nat} {ns : List Char}
    {now : Int} {bloom : Bloom64} {r₁ r₂ : BitVec 64} {setRes : Int} {p s : Nat}
    {subscribeOk : Nat → Bool} {subRes res : Int} {calls : List Call}
    (h : Cy.cyNew env uid nodeId ns now bloom r₁ r₂ setRes p s subscribeOk subRes =
      some (cy, res, calls)) : Acyclic cy.subs := by
  obtain ⟨-, -, cy1, res1, hc, hrest⟩ := cyNew_cases h
  have h1 : Acyclic cy1.subs ∧ cy1.topicsByHash = [] := by
    rcases claimNodeId_cases hc with ⟨-, rfl, -⟩ | ⟨-, rfl, -⟩ <;> exact ⟨zero, rfl⟩
  obtain ⟨h1, hnil⟩ := h1
  rcases hrest with ⟨-, rfl⟩ | ⟨cy2, _, h2, hsub⟩
  · exact h1
  have h2' : Acyclic cy2.subs := by
    rwa [(Node.ident_topicNewHint (by rw [hnil]; exact List.not_mem_nil p) h2).1]
  rcases hsub with ⟨-, _, h3⟩ | ⟨-, rfl⟩
  · exact (show Acyclic { cy2 with heartbeatTopic := some p }.subs from h2').subscribe h3
  · exact h2'

end Acyclic

theorem acyclic_of_reachable {env : Env} {cy : Node} (h : Reachable env cy) : Acyclic cy.subs :=
  Reachable.induct_on (fun h ↦ Acyclic.cyNew h) (fun _ ha hs ↦ ha.step hs) h

/-- **Every subscription list is finite, in every reachable state.** From any head, a topic's
`sub_list` or a subscription's `next`, the walk along the `next` pointers reaches `NULL` after a
list `L` of distinct subscriptions, and a walk allowed `L.length` steps reads exactly `L`: the
loops of `cy_ingest_topic_transfer` and `cy_subscribe_with_transfer_id_timeout` end. -/
theorem subscriptionLists_of_reachable {env : Env} {cy : Node} (hr : Reachable env cy)
    (head : Option Nat) :
    ∃ L, L.Nodup ∧ ∀ n, L.length ≤ n → walkSubs cy.subs n head = some L := by
  obtain ⟨L, hL⟩ := acyclic_of_reachable hr head
  exact ⟨L, hL.nodup, fun _ hn ↦ hL.walkSubs_eq hn⟩

theorem subscriptionLists_canNode :
    ∃ L, L.Nodup ∧ ∀ n, L.length ≤ n →
      walkSubs canNode.subs n (canNode.topics 0).subList = some L :=
  subscriptionLists_of_reachable canNode_reachable _

/-- **Subscribing from a reachable node.** For every live topic of a reachable node, with its
list `L` of subscriptions, `cy_subscribe_with_transfer_id_timeout` returns whenever its walk has
room for `L`: the topic has a name, as the call asserts; a new object is appended to the list,
and one already in it becomes the last entry. -/
theorem subscribe_of_reachable {env : Env} {cy : Node} (hr : Reachable env cy) (p s extent : Nat)
    (timeout res : Int) (callback : Callback) (hp : p ∈ cy.topicsByHash) :
    ∃ L, Chain cy.subs (cy.topics p).subList L ∧ ∀ fuel, L.length ≤ fuel →
      ∃ cy' err, subscribeWithTransferIdTimeout cy p s extent timeout callback fuel res =
        some (cy', err) ∧
        ((s ∉ L ∧ Chain cy'.subs (cy'.topics p).subList (L ++ [s])) ∨
          ∃ l₁ l₂, L = l₁ ++ s :: l₂ ∧ Chain cy'.subs (cy'.topics p).subList (l₁ ++ [s])) := by
  obtain ⟨L, hL⟩ := acyclic_of_reachable hr (cy.topics p).subList
  have hn := List.ne_nil_of_length_pos ((topicNames_of_reachable hr).length_pos p hp)
  exact ⟨L, hL, fun _ hfuel ↦ subscribeWithTransferIdTimeout_subList hn hL hL.nodup hfuel⟩

/-- On `canNode` the heartbeat topic's list is the core's subscription `0`; subscribing the
object `1` with a walk of one step appends it. -/
theorem subscribe_of_reachable_canNode :
    ∃ cy' err, subscribeWithTransferIdTimeout canNode 0 1 0 0 .user 1 0 = some (cy', err) ∧
      Chain cy'.subs (cy'.topics 0).subList [0, 1] := by
  obtain ⟨L, hL, h⟩ := subscribe_of_reachable canNode_reachable 0 1 0 0 0 .user (by decide)
  have h0 : Chain canNode.subs (canNode.topics 0).subList [0] :=
    chain_of_walkSubs (n := 1) (by decide)
  obtain rfl := hL.unique h0
  obtain ⟨cy', err, h', ⟨-, hc⟩ | ⟨l₁, l₂, he, -⟩⟩ := h 1 le_rfl
  · exact ⟨cy', err, h', hc⟩
  · exact absurd (he ▸ List.mem_append_right l₁ (List.mem_cons_self 1 l₂)) (by decide)

/-! ## A dropped subscription -/

/-- `canNode` after the application subscribes the objects `1` and `2`, in that order, to the
heartbeat topic, behind the core's own subscription `0`. -/
def twoSubsNode : Node :=
  match subscribeWithTransferIdTimeout canNode 0 1 0 0 .user 8 0 with
  | some r =>
    match subscribeWithTransferIdTimeout r.1 0 2 0 0 .user 8 0 with
    | some r' => r'.1
    | none => canNode
  | none => canNode

theorem twoSubsNode_reachable : Reachable Env.can twoSubsNode := by
  have h0 : 0 ∈ canNode.topicsByHash := by decide
  unfold twoSubsNode
  split
  · rename_i r h₁
    have hr : Reachable Env.can r.1 :=
      canNode_reachable.step (.subscribe h0 (by decide : Callback.user ≠ .onHeartbeat) h₁)
    split
    · rename_i r' h₂
      have h0' : 0 ∈ r.1.topicsByHash := by
        have : ((subscribeWithTransferIdTimeout canNode 0 1 0 0 .user 8 0).map fun r ↦
            decide (0 ∈ r.1.topicsByHash)) = some true := by decide
        rw [h₁] at this
        exact of_decide_eq_true (Option.some_injective _ this)
      exact hr.step (.subscribe h0' (by decide : Callback.user ≠ .onHeartbeat) h₂)
    · exact canNode_reachable
  · exact canNode_reachable

/-- On `twoSubsNode` the heartbeat topic's list is `0, 1, 2`. Subscribing `1` again, as the API
allows, leaves the list `0, 1`: the subscription `2` no longer receives the topic's transfers. -/
theorem subscribe_again_drops :
    Reachable Env.can twoSubsNode ∧
      Chain twoSubsNode.subs (twoSubsNode.topics 0).subList [0, 1, 2] ∧
      ∃ cy' err, subscribeWithTransferIdTimeout twoSubsNode 0 1 0 0 .user 8 0 = some (cy', err) ∧
        Chain cy'.subs (cy'.topics 0).subList [0, 1] := by
  have hafter : ((subscribeWithTransferIdTimeout twoSubsNode 0 1 0 0 .user 8 0).bind fun r ↦
      walkSubs r.1.subs 8 (r.1.topics 0).subList) = some [0, 1] := by decide
  obtain ⟨⟨cy', err⟩, h, hw⟩ := Option.bind_eq_some.1 hafter
  exact ⟨twoSubsNode_reachable, chain_of_walkSubs (n := 8) (by decide), cy', err, h,
    chain_of_walkSubs hw⟩

/-! ## A moved subscription -/

theorem Node.subs_onHeartbeat {subscribeOk : Nat → Bool} {cy c : Node} {tr : Transfer}
    (h : onHeartbeat subscribeOk cy tr = some c) : c.subs = cy.subs := by
  simp only [onHeartbeat] at h
  split at h
  · cases h; rfl
  · exact Node.subs_eq_of_ident (Node.ident_mergeGossip h)

/-- The callback loop of `cy_ingest_topic_transfer` fails its assertion `sub->topic == topic`
on a list that holds a subscription of another topic. -/
theorem runCallbacks_eq_none {subscribeOk : Nat → Bool} {p s : Nat} {tr : Transfer} :
    ∀ {l : List Nat} {cy : Node}, s ∈ l → (cy.subs s).topic ≠ p →
      runCallbacks subscribeOk p tr l cy = none
  | [], _, hs, _ => absurd hs (List.not_mem_nil _)
  | a :: l, cy, hs, hp => by
    simp only [runCallbacks]
    split_ifs with h₁ h₂
    · rfl
    · rcases List.mem_cons.1 hs with rfl | hs
      · exact absurd hp h₁
      cases hc : onHeartbeat subscribeOk cy tr with
      | none => rfl
      | some c => exact runCallbacks_eq_none hs (Node.subs_onHeartbeat hc ▸ hp)
    · rcases List.mem_cons.1 hs with rfl | hs
      · exact absurd hp h₁
      exact runCallbacks_eq_none hs hp

theorem topics_subscribe_of_ne {cy cy' : Node} {p q s extent fuel : Nat} {timeout res err : Int}
    {callback : Callback}
    (hs : subscribeWithTransferIdTimeout cy p s extent timeout callback fuel res = some (cy', err))
    (hq : q ≠ p) : cy'.topics q = cy.topics q := by
  simp only [subscribeWithTransferIdTimeout, Option.ite_none_left_eq_some,
    Option.map_eq_some'] at hs
  obtain ⟨-, l, -, he⟩ := hs
  rw [← (Prod.mk.inj he).1]
  exact Function.update_noteq hq _ _

/-- Subscribing `s`, to any topic, ends at `s` every list that ran through it, and `s` then
belongs to that topic: the object is zeroed, and the one link the call may make is from the end
of the topic's own list. -/
theorem subscribe_cuts {cy cy' : Node} {p s extent fuel : Nat} {timeout res err : Int}
    {callback : Callback}
    (hs : subscribeWithTransferIdTimeout cy p s extent timeout callback fuel res = some (cy', err))
    {head : Option Nat} {l₁ l₂ : List Nat} (hL : Chain cy.subs head (l₁ ++ s :: l₂)) :
    Chain cy'.subs head (l₁ ++ [s]) ∧ (cy'.subs s).topic = p := by
  simp only [subscribeWithTransferIdTimeout, Option.ite_none_left_eq_some,
    Option.map_eq_some'] at hs
  obtain ⟨-, l, hw, he⟩ := hs
  rw [← (Prod.mk.inj he).1]
  set subs1 := Function.update cy.subs s ⟨none, p, callback⟩
  have hs1 : (subs1 s).next = none := by simp [subs1]
  have ht1 : (subs1 s).topic = p := by simp [subs1]
  have hcut : Chain subs1 head (l₁ ++ [s]) :=
    hL.cut hs1 fun x hx ↦ Function.update_noteq (ne_of_mem_of_not_mem hx hL.not_mem_left) _ _
  by_cases hsl : s ∈ l
  · simp only [if_pos hsl]
    exact ⟨hcut, ht1⟩
  · simp only [if_neg hsl]
    rcases List.eq_nil_or_concat l with rfl | ⟨l', last, rfl⟩
    · exact ⟨hcut, ht1⟩
    · rw [List.concat_eq_append] at hw hsl
      have hne : s ≠ last := fun e ↦ hsl (e ▸ List.mem_append_right _ (List.mem_singleton_self _))
      have hl := (chain_of_walkSubs hw).next_getLast
      -- the entry linked to `s` ends a list, so it is not on the cut list before `s`
      have hlast : last ∉ l₁ ++ [s] := fun h ↦ by
        rcases List.mem_append.1 h with h | h
        · obtain ⟨m₁, m₂, rfl⟩ := List.append_of_mem h
          rw [List.append_assoc, List.cons_append] at hcut
          exact absurd (hcut.eq_nil_of_next hl) (by simp)
        · exact hne (List.mem_singleton.1 h).symm
      simp only [List.concat_eq_append, List.getLast?_append_of_ne_nil _ (List.cons_ne_nil _ _),
        List.getLast?_singleton]
      exact ⟨hcut.congr fun x hx ↦ Function.update_noteq (ne_of_mem_of_not_mem hx hlast) _ _,
        by rw [Function.update_noteq hne]; exact ht1⟩

/-- **A subscription moved to another topic breaks the first.** Subscribe an object `s` that is
in the list of topic `A` to another topic `B`. The object now belongs to `B` and is still in
`A`'s list, so every later `cy_ingest_topic_transfer` on `A`, whatever the transfer, fails the
assertion `sub->topic == topic` of its callback loop. -/
theorem ingestTopicTransfer_after_move {env : Env} {cy cy' : Node} {A B s extent fuel : Nat}
    {timeout res err : Int} {callback : Callback} (hAB : A ≠ B) {L : List Nat}
    (hL : Chain cy.subs (cy.topics A).subList L) (hs : s ∈ L)
    (hsub : subscribeWithTransferIdTimeout cy B s extent timeout callback fuel res =
      some (cy', err))
    (subscribeOk : Nat → Bool) (tr : Transfer) (r : BitVec 64) (fuel' : Nat) :
    ingestTopicTransfer env subscribeOk cy' A tr r fuel' = none := by
  obtain ⟨l₁, l₂, rfl⟩ := List.append_of_mem hs
  obtain ⟨hc, ht⟩ := subscribe_cuts hsub hL
  have hA := topics_subscribe_of_ne hsub hAB
  simp only [ingestTopicTransfer]
  generalize hm : markNeighbor env.nodeIdMax cy' tr.remoteNodeId r = m
  have hmt : m.topics = cy'.topics := hm ▸ rfl
  have hms : m.subs = cy'.subs := hm ▸ rfl
  simp only [Node.modifyTopic_topics_self, Node.modifyTopic_subs, hmt, hms, hA]
  split
  · rename_i heq
    rw [heq] at hc
    generalize e : l₁ ++ [s] = M at hc
    cases hc
    simp at e
  · cases hw : walkSubs cy'.subs fuel' (cy.topics A).subList with
    | none => rfl
    | some l =>
      rw [(chain_of_walkSubs hw).unique hc]
      exact runCallbacks_eq_none (List.mem_append_right _ (List.mem_singleton_self _))
        (by simpa [hms, ht] using hAB.symm)

/-- `twoSubsNode` after `cy_topic_new` of `"/t"` at the object `1`. -/
def twoTopicsNode : Node :=
  ((topicNewHint Env.can (fun _ ↦ true) twoSubsNode 1 ['/', 't'] subjectIdInvalid 0 0).map
    (·.1)).getD twoSubsNode

theorem twoTopicsNode_reachable : Reachable Env.can twoTopicsNode := by
  obtain ⟨r, hr⟩ := Option.isSome_iff_exists.1 (show (topicNewHint Env.can (fun _ ↦ true)
    twoSubsNode 1 ['/', 't'] subjectIdInvalid 0 0).isSome by decide)
  rw [twoTopicsNode, hr]
  exact .step twoSubsNode_reachable (.topicNewHint (by decide) hr)

/-- On `twoTopicsNode`, subscribing the object `1` of the heartbeat topic's list to the topic
`"/t"` just created makes every later ingestion on the heartbeat topic fail. -/
theorem ingestTopicTransfer_after_move_twoTopicsNode :
    Reachable Env.can twoTopicsNode ∧ 1 ∈ twoTopicsNode.topicsByHash ∧
      ∃ cy' err, subscribeWithTransferIdTimeout twoTopicsNode 1 1 0 0 .user 8 0 = some (cy', err) ∧
        ingestTopicTransfer Env.can (fun _ ↦ true) cy' 0 ⟨0, 9, 0, []⟩ 0 8 = none := by
  have hs : (subscribeWithTransferIdTimeout twoTopicsNode 1 1 0 0 .user 8 0).isSome = true := by
    decide
  refine ⟨twoTopicsNode_reachable, by decide, ?_⟩
  rcases hsub : subscribeWithTransferIdTimeout twoTopicsNode 1 1 0 0 .user 8 0 with _ | ⟨cy', err⟩
  · rw [hsub] at hs; cases hs
  · exact ⟨cy', err, rfl, ingestTopicTransfer_after_move (by decide)
      (chain_of_walkSubs (n := 8) (by decide) :
        Chain twoTopicsNode.subs (twoTopicsNode.topics 0).subList [0, 1, 2])
      (by decide : 1 ∈ [0, 1, 2]) hsub _ _ _ _⟩

end Cy
