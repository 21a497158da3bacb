import Cy.Basic
import Mathlib.Data.Nat.Digits

/-!
# Topic names and their hashes

A topic is created from a name that the application writes relative to the node's namespace or
to the node's own name. `compose_topic_name` resolves it and canonicalises the result; the
canonical name is what is hashed and gossiped. `topic_hash` maps the canonical decimal form of
a subject-ID below `8192` to that number (a pinned topic) and every other name to its
`rapidhash`.

## Canonical names

The loop of `compose_topic_name` is idempotent (`collapseSlashes_idem`), so a composed name is
canonical (`composeTopicName_canonical`) and, when it has at most `CY_TOPIC_NAME_MAX`
characters, a fixpoint of composition (`composeTopicName_fixpoint`). The limit itself is checked
on the temporary string before canonicalisation, which rejects some names whose canonical form
is short and accepts some whose canonical form is one character too long
(`composeTopicName_checks_raw`).

## Pinned names

`parse_pinned` accepts exactly the numerals of `1` to `8191` written without a leading zero, and
reads each to its value (`parsePinned_ne_iff`, with the numeral taken from `Nat.digits`). Its
`uint32_t` accumulator never wraps (`parsePinnedDigits32_eq`), and `parsePinned_spec` draws the
consequences for `topic_hash`.

## Representation

Names are C strings: lists of the non-`NUL` characters before the terminator. The formatting
calls of the source (`snprintf` into fixed buffers) become `List.take` at the buffer's capacity.
-/

namespace Cy

/-- `CY_NAMESPACE_NAME_MAX`. -/
def namespaceNameMax : Nat := topicNameMax - 2

/-! ## Composition -/

/-- The canonicalising loop of `compose_topic_name`, `prev` being the character read last: a
`/` that follows a `/` is dropped, so runs collapse and leading slashes vanish. -/
def collapseSlashes : Char → List Char → List Char
  | _, [] => []
  | prev, c :: cs =>
    if c = '/' ∧ prev = '/' then collapseSlashes c cs else c :: collapseSlashes c cs

/-- The temporary string of `compose_topic_name`: an absolute name as is; otherwise the name
joined with `/` to the node's name when the name or the namespace starts with `~` (one leading
`~` of the name dropped), or else to the namespace. `snprintf` keeps 105 characters. -/
def composeTmp (ns user name : List Char) : List Char :=
  match name with
  | '/' :: _ => name.take 105
  | _ =>
    let isUser := name.head? = some '~' ∨ ns.head? = some '~'
    let rest := if name.head? = some '~' then name.tail else name
    ((if isUser then user else ns) ++ '/' :: rest).take 105

/-- `compose_topic_name`: the canonical name, or `none` where the source returns `false`, which
is when the temporary string has a character past index `CY_TOPIC_NAME_MAX`. A trailing `/` is
removed unless it is all that is left. -/
def composeTopicName (ns user name : List Char) : Option (List Char) :=
  let tmp := composeTmp ns user name
  if topicNameMax + 1 < tmp.length then none
  else
    let out := collapseSlashes '/' tmp
    some (if tmp.getLastD '/' = '/' ∧ out ≠ [] then out.dropLast else out)

theorem length_collapseSlashes_le : ∀ (prev : Char) (s : List Char),
    (collapseSlashes prev s).length ≤ s.length
  | _, [] => le_rfl
  | prev, c :: cs => by
    have := length_collapseSlashes_le c cs
    unfold collapseSlashes; split <;> simp only [List.length_cons] <;> omega

/-- A composed name has at most `CY_TOPIC_NAME_MAX + 1` characters; `cy_topic_new_hint` cuts
it to `CY_TOPIC_NAME_MAX`. -/
theorem length_composeTopicName_le {ns user name out : List Char}
    (h : composeTopicName ns user name = some out) : out.length ≤ topicNameMax + 1 := by
  simp only [composeTopicName] at h
  have := length_collapseSlashes_le '/' (composeTmp ns user name)
  split_ifs at h with hl <;> cases h <;> simp only [topicNameMax, List.length_dropLast] at hl ⊢ <;>
    omega

example : composeTopicName ['/'] ['u'] ['/', '/', '7', '5', '0', '9', '/'] =
    some ['7', '5', '0', '9'] := by decide

/-! ## Canonical names -/

/-- The loop is idempotent. -/
theorem collapseSlashes_idem : ∀ (p : Char) (s : List Char),
    collapseSlashes p (collapseSlashes p s) = collapseSlashes p s
  | _, [] => rfl
  | p, c :: cs => by
    by_cases h : c = '/' ∧ p = '/'
    · rw [collapseSlashes, if_pos h, h.1, h.2]; exact collapseSlashes_idem _ cs
    · rw [collapseSlashes, if_neg h, collapseSlashes, if_neg h, collapseSlashes_idem c cs]

/-- The loop keeps the last character read. -/
theorem getLastD_collapseSlashes : ∀ (p : Char) (s : List Char),
    (collapseSlashes p s).getLastD p = s.getLastD p
  | _, [] => rfl
  | p, c :: cs => by
    unfold collapseSlashes
    split
    · rename_i h; obtain ⟨rfl, rfl⟩ := h
      rw [getLastD_collapseSlashes, List.getLastD_cons]
    · rw [List.getLastD_cons, List.getLastD_cons, getLastD_collapseSlashes]

/-- The loop reads a string piece by piece. -/
theorem collapseSlashes_append : ∀ (p : Char) (s t : List Char),
    collapseSlashes p (s ++ t) = collapseSlashes p s ++ collapseSlashes (s.getLastD p) t
  | _, [], _ => rfl
  | p, c :: cs, t => by
    simp only [List.cons_append, collapseSlashes, List.getLastD_cons]
    split <;> simp [collapseSlashes_append c cs t]

/-- A fixpoint of the loop ending in `c` is one without it, and `c` does not repeat a slash. -/
theorem collapseSlashes_fix_append {p c : Char} {s : List Char}
    (h : collapseSlashes p (s ++ [c]) = s ++ [c]) :
    collapseSlashes p s = s ∧ ¬(c = '/' ∧ s.getLastD p = '/') := by
  rw [collapseSlashes_append] at h
  have hs := length_collapseSlashes_le p s
  by_cases hc : c = '/' ∧ s.getLastD p = '/'
  · rw [collapseSlashes, if_pos hc, collapseSlashes, List.append_nil] at h
    have := congrArg List.length h; simp at this; omega
  · rw [collapseSlashes, if_neg hc, collapseSlashes] at h
    exact ⟨List.append_cancel_right h, hc⟩

/-- The output of `compose_topic_name` is canonical: a fixpoint of the loop that does not end in
`/`, unless it is empty. -/
theorem composeTopicName_canonical {ns user name out : List Char}
    (h : composeTopicName ns user name = some out) :
    collapseSlashes '/' out = out ∧ (out = [] ∨ out.getLastD '/' ≠ '/') := by
  simp only [composeTopicName] at h
  split_ifs at h with hl hd <;> cases h
  · obtain ⟨A, c, hAc⟩ :=
      (List.eq_nil_or_concat (collapseSlashes '/' (composeTmp ns user name))).resolve_left hd.2
    have hlast := (getLastD_collapseSlashes '/' (composeTmp ns user name)).trans hd.1
    have hO := collapseSlashes_idem '/' (composeTmp ns user name)
    rw [List.concat_eq_append] at hAc
    rw [hAc] at hlast hO ⊢
    rw [List.getLastD_concat] at hlast
    obtain ⟨hA, hne⟩ := collapseSlashes_fix_append hO
    rw [List.dropLast_concat]
    exact ⟨hA, .inr fun h ↦ hne ⟨hlast, h⟩⟩
  · refine ⟨collapseSlashes_idem _ _, ?_⟩
    by_cases hO : collapseSlashes '/' (composeTmp ns user name) = []
    · exact .inl hO
    · exact .inr fun h' ↦ hd ⟨by rwa [getLastD_collapseSlashes] at h', hO⟩

/-- **A composed name of at most `CY_TOPIC_NAME_MAX` characters is a fixpoint**: composed as an
absolute name, under any namespace and node name, it gives itself back. -/
theorem composeTopicName_fixpoint {ns user name out : List Char}
    (h : composeTopicName ns user name = some out) (hlen : out.length ≤ topicNameMax)
    (ns' user' : List Char) : composeTopicName ns' user' ('/' :: out) = some out := by
  obtain ⟨hfix, hend⟩ := composeTopicName_canonical h
  have htmp : composeTmp ns' user' ('/' :: out) = '/' :: out :=
    List.take_of_length_le (by simp only [topicNameMax, List.length_cons] at hlen ⊢; omega)
  unfold composeTopicName
  rw [htmp, if_neg (by simp only [topicNameMax, List.length_cons] at hlen ⊢; omega)]
  simp only [collapseSlashes, and_self, if_true, hfix, List.getLastD_cons]
  rcases hend with rfl | hend
  · rfl
  · rw [if_neg fun h ↦ hend h.1]

/-- The heartbeat topic's name, composed from `"//7509/"`, composes to itself again as
`"/7509"` under another namespace. -/
theorem composeTopicName_fixpoint_heartbeat :
    composeTopicName ['/'] ['u'] ['/', '/', '7', '5', '0', '9', '/'] = some ['7', '5', '0', '9'] ∧
      composeTopicName ['n', 's'] [] ['/', '7', '5', '0', '9'] = some ['7', '5', '0', '9'] :=
  have h : composeTopicName ['/'] ['u'] ['/', '/', '7', '5', '0', '9', '/'] =
      some ['7', '5', '0', '9'] := by decide
  ⟨h, composeTopicName_fixpoint h (by decide) ['n', 's'] []⟩

/-! ## Pinned names and the hash -/

/-- The digit loop of `parse_pinned`, `out` being the value read so far. -/
def parsePinnedDigits : List Char → Nat → Nat
  | [], out => out
  | c :: cs, out =>
    if c < '0' ∨ '9' < c then subjectIdInvalid
    else if totalSubjectCount ≤ out * 10 + (c.toNat - '0'.toNat) then subjectIdInvalid
    else parsePinnedDigits cs (out * 10 + (c.toNat - '0'.toNat))

/-- `parse_pinned`: the subject-ID a canonical decimal name denotes, else
`CY_SUBJECT_ID_INVALID`. -/
def parsePinned : List Char → Nat
  | [] => subjectIdInvalid
  | '0' :: _ => subjectIdInvalid
  | s => parsePinnedDigits s 0

/-- `topic_hash`. -/
def topicHash (rapidhash : List Char → BitVec 64) (name : List Char) : BitVec 64 :=
  if parsePinned name < totalSubjectCount then BitVec.ofNat 64 (parsePinned name)
  else rapidhash name

theorem parsePinnedDigits_lt_or_invalid : ∀ (s : List Char) {out : Nat}, out < totalSubjectCount →
    parsePinnedDigits s out < totalSubjectCount ∨ parsePinnedDigits s out = subjectIdInvalid
  | [], _, h => .inl h
  | c :: cs, out, _ => by
    unfold parsePinnedDigits
    split_ifs with h₁ h₂
    · exact .inr rfl
    · exact .inr rfl
    · exact parsePinnedDigits_lt_or_invalid cs (not_le.1 h₂)

/-- A name that parses as pinned hashes to its subject-ID, which is a pinned hash. -/
theorem isPinned_topicHash {rapidhash : List Char → BitVec 64} {name : List Char}
    (h : parsePinned name < totalSubjectCount) :
    topicHash rapidhash name = BitVec.ofNat 64 (parsePinned name) ∧
      isPinned (topicHash rapidhash name) = true := by
  have hlt : parsePinned name < 18446744073709551616 := lt_trans h (by decide)
  simp [topicHash, h, isPinned, Nat.mod_eq_of_lt hlt]

example : parsePinned ['7', '5', '0', '9'] = 7509 := by decide

/-! ## What `parse_pinned` accepts -/

/-- The loop body of `parse_pinned`: one more decimal digit `c` after the value `v`. -/
def decimalStep (v : Nat) (c : Char) : Nat := v * 10 + (c.toNat - '0'.toNat)

/-- The character codes of the decimal numeral of `k`, most significant digit first, without a
leading zero; empty for `0`. -/
def decimalCodes (k : Nat) : List Nat := ((Nat.digits 10 k).map (· + 48)).reverse

/-- A decimal digit, `'0'` to `'9'`. -/
def IsDigit (c : Char) : Prop := 48 ≤ c.toNat ∧ c.toNat ≤ 57

instance : DecidablePred IsDigit :=
  fun c ↦ inferInstanceAs (Decidable (48 ≤ c.toNat ∧ c.toNat ≤ 57))

theorem le_foldl_decimalStep (cs : List Char) (v : Nat) : v ≤ cs.foldl decimalStep v := by
  induction cs generalizing v with
  | nil => exact le_rfl
  | cons c cs ih => exact le_trans (by unfold decimalStep; omega) (ih _)

/-- What `parse_pinned`'s loop returns, unless `CY_SUBJECT_ID_INVALID`: the value of a string of
digits. -/
theorem parsePinnedDigits_of_ne : ∀ {cs : List Char} {out : Nat},
    parsePinnedDigits cs out ≠ subjectIdInvalid →
      (∀ c ∈ cs, IsDigit c) ∧ parsePinnedDigits cs out = cs.foldl decimalStep out
  | [], _, _ => ⟨fun _ h ↦ absurd h (List.not_mem_nil _), rfl⟩
  | c :: cs, out, h => by
    unfold parsePinnedDigits at h ⊢
    split_ifs at h ⊢ with h₁ h₂
    · exact absurd rfl h
    · exact absurd rfl h
    · obtain ⟨hd, he⟩ := parsePinnedDigits_of_ne h
      exact ⟨List.forall_mem_cons.2 ⟨⟨not_lt.1 (not_or.1 h₁).1, not_lt.1 (not_or.1 h₁).2⟩, hd⟩, he⟩

/-- A string of digits whose value stays in range is read to its value. -/
theorem parsePinnedDigits_of_digits : ∀ {cs : List Char} {out : Nat}, (∀ c ∈ cs, IsDigit c) →
    cs.foldl decimalStep out < totalSubjectCount →
      parsePinnedDigits cs out = cs.foldl decimalStep out
  | [], _, _, _ => rfl
  | c :: cs, out, hd, hv => by
    have hc := hd c (List.mem_cons_self _ _)
    have hstep : decimalStep out c < totalSubjectCount :=
      lt_of_le_of_lt (le_foldl_decimalStep cs _) hv
    unfold parsePinnedDigits
    rw [if_neg (show ¬(c < '0' ∨ '9' < c) from not_or.2 ⟨not_lt.2 hc.1, not_lt.2 hc.2⟩),
      if_neg (show ¬totalSubjectCount ≤ out * 10 + (c.toNat - '0'.toNat) from not_le.2 hstep)]
    exact parsePinnedDigits_of_digits (fun d hd' ↦ hd d (List.mem_cons_of_mem _ hd')) hv

theorem foldl_decimalStep (cs : List Char) (v : Nat) :
    cs.foldl decimalStep v =
      v * 10 ^ cs.length + Nat.ofDigits 10 (cs.reverse.map (·.toNat - 48)) := by
  induction cs generalizing v with
  | nil => simp
  | cons c cs ih =>
    rw [List.foldl_cons, ih, List.reverse_cons, List.map_append, Nat.ofDigits_append,
      List.map_singleton, Nat.ofDigits_singleton, List.length_map, List.length_reverse,
      List.length_cons, decimalStep]
    show (v * 10 + (c.toNat - 48)) * 10 ^ cs.length + _ = _
    ring

/-- A string of digits that does not start with `'0'` spells the numeral of its value. -/
theorem decimalCodes_foldl {c : Char} {cs : List Char} (hd : ∀ d ∈ c :: cs, IsDigit d)
    (h0 : c.toNat ≠ 48) :
    decimalCodes ((c :: cs).foldl decimalStep 0) = (c :: cs).map Char.toNat := by
  have hdig : Nat.digits 10 (Nat.ofDigits 10 ((c :: cs).reverse.map (·.toNat - 48))) =
      (c :: cs).reverse.map (·.toNat - 48) := by
    refine Nat.digits_ofDigits 10 (by norm_num) _ (fun l hl ↦ ?_) (fun _ ↦ ?_)
    · obtain ⟨d, hd', rfl⟩ := List.mem_map.1 hl
      have := hd d (List.mem_reverse.1 hd'); unfold IsDigit at this; omega
    · simp only [List.reverse_cons, List.map_append, List.map_singleton,
        List.getLast_append_singleton]
      have := hd c (List.mem_cons_self _ _); unfold IsDigit at this; omega
  rw [foldl_decimalStep, zero_mul, zero_add, decimalCodes, hdig, List.map_map, List.map_reverse,
    List.reverse_reverse]
  refine List.map_congr_left fun d hd' ↦ ?_
  have := hd d hd'; unfold IsDigit at this; simp only [Function.comp_apply]; omega

/-- The numeral of a positive `k` is a string of digits that does not start with `'0'` and whose
value is `k`. -/
theorem of_decimalCodes {s : List Char} {k : Nat} (hk : k ≠ 0)
    (h : s.map Char.toNat = decimalCodes k) :
    ∃ c cs, s = c :: cs ∧ (∀ d ∈ s, IsDigit d) ∧ c.toNat ≠ 48 ∧ s.foldl decimalStep 0 = k := by
  have hrev : s.reverse.map Char.toNat = (Nat.digits 10 k).map (· + 48) := by
    rw [List.map_reverse, h, decimalCodes, List.reverse_reverse]
  have hval : s.reverse.map (·.toNat - 48) = Nat.digits 10 k := by
    have := congrArg (List.map (· - 48)) hrev
    simpa only [List.map_map, Function.comp_def, Nat.add_sub_cancel, List.map_id'] using this
  have hdig : ∀ d ∈ s, IsDigit d := fun d hd ↦ by
    have hm : d.toNat ∈ (Nat.digits 10 k).map (· + 48) :=
      hrev ▸ List.mem_map_of_mem _ (List.mem_reverse.2 hd)
    obtain ⟨x, hx, he⟩ := List.mem_map.1 hm
    have := Nat.digits_lt_base (by norm_num) hx
    unfold IsDigit; omega
  obtain _ | ⟨c, cs⟩ := s
  · exact absurd (by simpa using hval.symm) (Nat.digits_ne_nil_iff_ne_zero.2 hk)
  refine ⟨c, cs, rfl, hdig, fun h0 ↦ ?_, ?_⟩
  · have hl := Nat.getLast_digit_ne_zero 10 hk
    simp only [← hval, List.reverse_cons, List.map_append, List.map_singleton,
      List.getLast_append_singleton, h0] at hl
    exact hl rfl
  · rw [foldl_decimalStep, zero_mul, zero_add, hval, Nat.ofDigits_digits]

theorem toNat_eq_48_iff {c : Char} : c.toNat = 48 ↔ c = '0' :=
  ⟨fun h ↦ by rw [← Char.ofNat_toNat c, h], fun h ↦ h ▸ rfl⟩

theorem parsePinned_cons {c : Char} (cs : List Char) (h0 : c ≠ '0') :
    parsePinned (c :: cs) = parsePinnedDigits (c :: cs) 0 := by
  unfold parsePinned; split
  · rename_i h; cases h
  · rename_i h; cases h; exact absurd rfl h0
  · rfl

/-- **`parse_pinned` accepts exactly the numerals of `1` to `8191`**: it returns a value other
than `CY_SUBJECT_ID_INVALID` just when the string is the decimal numeral of that value, without a
leading zero, and the value is a pinned subject-ID. -/
theorem parsePinned_ne_iff (s : List Char) (k : Nat) :
    (parsePinned s = k ∧ k ≠ subjectIdInvalid) ↔
      1 ≤ k ∧ k < totalSubjectCount ∧ s.map Char.toNat = decimalCodes k := by
  constructor
  · rintro ⟨h, hk⟩
    obtain _ | ⟨c, cs⟩ := s
    · exact absurd h.symm hk
    by_cases h0 : c = '0'
    · subst h0; exact absurd h.symm hk
    rw [parsePinned_cons cs h0] at h
    obtain ⟨hd, he⟩ := parsePinnedDigits_of_ne (h ▸ hk)
    have hlt := (parsePinnedDigits_lt_or_invalid (c :: cs)
      (by decide : 0 < totalSubjectCount)).resolve_right (h ▸ hk)
    have hc := hd c (List.mem_cons_self _ _)
    have h0' : c.toNat ≠ 48 := fun e ↦ h0 (toNat_eq_48_iff.1 e)
    have h1 : 1 ≤ (c :: cs).foldl decimalStep 0 :=
      le_trans (by unfold decimalStep IsDigit at *; show 1 ≤ 0 * 10 + (c.toNat - 48); omega)
        (le_foldl_decimalStep cs _)
    rw [he] at h hlt
    subst h
    exact ⟨h1, hlt, (decimalCodes_foldl hd h0').symm⟩
  · rintro ⟨h1, hlt, hs⟩
    obtain ⟨c, cs, rfl, hd, h0, hv⟩ := of_decimalCodes (by omega) hs
    rw [parsePinned_cons cs fun e ↦ h0 (toNat_eq_48_iff.2 e),
      parsePinnedDigits_of_digits hd (hv ▸ hlt), hv]
    exact ⟨rfl, by unfold subjectIdInvalid totalSubjectCount at *; omega⟩

/-- The digit loop of `parse_pinned` in the source's arithmetic: `out` is a `uint32_t`, each digit
is narrowed to `uint8_t`, and the result to the `uint16_t` the function returns. -/
def parsePinnedDigits32 : List Char → BitVec 32 → Nat
  | [], out => out.toNat % 2 ^ 16
  | c :: cs, out =>
    if c < '0' ∨ '9' < c then subjectIdInvalid
    else
      let next := out * 10 + BitVec.ofNat 32 ((c.toNat - '0'.toNat) % 2 ^ 8)
      if totalSubjectCount ≤ next.toNat then subjectIdInvalid
      else parsePinnedDigits32 cs next

/-- The 32-bit loop never wraps: from any value below `8192` it computes what the exact loop
computes. -/
theorem parsePinnedDigits32_eq : ∀ (cs : List Char) {out : Nat}, out < totalSubjectCount →
    parsePinnedDigits32 cs (BitVec.ofNat 32 out) = parsePinnedDigits cs out
  | [], out, h => by
    have h16 : out < 2 ^ 16 := lt_trans h (by decide)
    simp only [parsePinnedDigits32, parsePinnedDigits, BitVec.toNat_ofNat,
      Nat.mod_eq_of_lt (lt_trans h16 (by decide : 2 ^ 16 < 2 ^ 32)), Nat.mod_eq_of_lt h16]
  | c :: cs, out, h => by
    unfold parsePinnedDigits32 parsePinnedDigits
    by_cases h₁ : c < '0' ∨ '9' < c
    · rw [if_pos h₁, if_pos h₁]
    rw [if_neg h₁, if_neg h₁]
    have hd : c.toNat ≤ 57 := not_lt.1 (not_or.1 h₁).2
    have hlt : out * 10 + (c.toNat - '0'.toNat) < 2 ^ 32 := by
      unfold totalSubjectCount at h; omega
    have hnext : BitVec.ofNat 32 out * 10 + BitVec.ofNat 32 ((c.toNat - '0'.toNat) % 2 ^ 8) =
        BitVec.ofNat 32 (out * 10 + (c.toNat - '0'.toNat)) := by
      apply BitVec.eq_of_toNat_eq
      have h10 : (10 : BitVec 32).toNat = 10 := rfl
      have hout : out % 2 ^ 32 = out := Nat.mod_eq_of_lt (by unfold totalSubjectCount at h; omega)
      have hd8 : (c.toNat - '0'.toNat) % 2 ^ 8 = c.toNat - '0'.toNat := Nat.mod_eq_of_lt (by omega)
      simp only [BitVec.toNat_add, BitVec.toNat_mul, BitVec.toNat_ofNat, h10, hout, hd8,
        Nat.mod_add_mod, Nat.add_mod_mod]
    simp only [hnext, BitVec.toNat_ofNat, Nat.mod_eq_of_lt hlt]
    split_ifs with h₂
    · rfl
    · exact parsePinnedDigits32_eq cs (not_le.1 h₂)

/-- **What `parse_pinned` and `topic_hash` do with a name.** `parse_pinned` returns `k` other than
`CY_SUBJECT_ID_INVALID` exactly on the decimal numeral of `k`, without leading zeros, for
`1 ≤ k < 8192`; its `uint32_t` accumulation never wraps; so distinct names never parse to the same
subject-ID; and `topic_hash` is `k` on the numeral of `k` and `rapidhash` on every other name. -/
theorem parsePinned_spec :
    (∀ (s : List Char) (k : Nat), (parsePinned s = k ∧ k ≠ subjectIdInvalid) ↔
      1 ≤ k ∧ k < totalSubjectCount ∧ s.map Char.toNat = decimalCodes k) ∧
    (∀ s : List Char, parsePinnedDigits32 s 0 = parsePinnedDigits s 0) ∧
    (∀ s s' : List Char, parsePinned s ≠ subjectIdInvalid → parsePinned s = parsePinned s' →
      s = s') ∧
    (∀ (rapidhash : List Char → BitVec 64) (s : List Char) (k : Nat), 1 ≤ k →
      k < totalSubjectCount → s.map Char.toNat = decimalCodes k →
        topicHash rapidhash s = BitVec.ofNat 64 k) ∧
    (∀ (rapidhash : List Char → BitVec 64) (s : List Char),
      (∀ k, 1 ≤ k → k < totalSubjectCount → s.map Char.toNat ≠ decimalCodes k) →
        topicHash rapidhash s = rapidhash s) := by
  refine ⟨parsePinned_ne_iff, fun s ↦ parsePinnedDigits32_eq s (by decide),
    fun s s' hs he ↦ ?_, fun rapidhash s k h1 hlt hs ↦ ?_, fun rapidhash s hs ↦ ?_⟩
  · obtain ⟨-, -, h⟩ := (parsePinned_ne_iff s _).1 ⟨rfl, hs⟩
    obtain ⟨-, -, h'⟩ := (parsePinned_ne_iff s' _).1 ⟨he.symm, he ▸ hs⟩
    simpa only [List.map_map, Function.comp_def, Char.ofNat_toNat, List.map_id'] using
      congrArg (List.map Char.ofNat) (h.trans h'.symm)
  · obtain ⟨h, -⟩ := (parsePinned_ne_iff s k).2 ⟨h1, hlt, hs⟩
    rw [topicHash, if_pos (h ▸ hlt), h]
  · by_cases hp : parsePinned s < totalSubjectCount
    · obtain ⟨h1, hlt, h⟩ := (parsePinned_ne_iff s _).1
        ⟨rfl, fun e ↦ absurd (e ▸ hp) (by decide)⟩
      exact absurd h (hs _ h1 hlt)
    · rw [topicHash, if_neg hp]

/-! ## The node's own name -/

/-- A hexadecimal digit as `printf` writes it. -/
def hexDigit (d : Nat) : Char := if d < 10 then Char.ofNat (48 + d) else Char.ofNat (87 + d)

/-- `%0<w>x` of a value below `16 ^ w`. -/
def hexPad : Nat → Nat → List Char
  | 0, _ => []
  | w + 1, x => hexPad w (x / 16) ++ [hexDigit (x % 16)]

/-- The default node name `"%04x/%04x/%08lx/"` of the three parts of the UID. -/
def uidName (uid : BitVec 64) : List Char :=
  hexPad 4 (uid.toNat / 2 ^ 48 % 2 ^ 16) ++ '/' :: hexPad 4 (uid.toNat / 2 ^ 32 % 2 ^ 16) ++
    '/' :: hexPad 8 (uid.toNat % 2 ^ 32) ++ ['/']

/-- The namespace `cy_new` keeps: at most `CY_NAMESPACE_NAME_MAX` characters of the given one,
or `/` when none is given. -/
def namespaceOf (ns : List Char) : List Char :=
  if ns = [] then ['/'] else ns.take namespaceNameMax

/-- The length limit is checked on the temporary string, not on the canonical name. In the default
namespace `/` a relative name of `96` characters is rejected, as its temporary string, `//`
followed by the name, has `98` characters, while its canonical form, which the same name made
absolute gives, has `96`. In the longest namespace the node keeps, `94` characters, the name `xy`
is accepted with a canonical name of `97` characters, which composed again as an absolute name is
rejected. -/
theorem composeTopicName_checks_raw :
    namespaceOf [] = ['/'] ∧ namespaceOf (List.replicate 94 'n') = List.replicate 94 'n' ∧
      composeTopicName ['/'] ['u'] (List.replicate 96 'a') = none ∧
      composeTopicName ['/'] ['u'] ('/' :: List.replicate 96 'a') = some (List.replicate 96 'a') ∧
      composeTopicName (List.replicate 94 'n') ['u'] ['x', 'y'] =
        some (List.replicate 94 'n' ++ ['/', 'x', 'y']) ∧
      composeTopicName (List.replicate 94 'n') ['u']
        ('/' :: (List.replicate 94 'n' ++ ['/', 'x', 'y'])) = none := by
  decide

end Cy
