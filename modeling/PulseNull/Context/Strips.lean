import PulseNull.Context.MicroCompact

/-! The second pass: what it can change in a message, and that it leaves nothing to strip. -/
namespace PulseNull.Context
open Session (Role ContentBlock MessageContent MessageSource Message)
open Text (ascii newline)

/-- The text in place of a stripped result. -/
def processed (n : ℕ) : Bytes :=
  ascii "[Tool output processed " ++ emDash ++ ascii " " ++ Text.decimal n ++ ascii " bytes]"

/-- The text in place of the tool use before it. -/
def usedTool (name : Bytes) : Bytes := ascii "[Used tool: " ++ name ++ ascii "]"

/-- The length of a result has at most a hundred digits. -/
def Small (msg : Message) : Prop :=
  ∀ id content isError, ContentBlock.toolResult id content isError ∈ blocksOf msg → content.length < 10 ^ 100

def strippables (msg : Message) : List Bytes := (blocksOf msg).filterMap strippable

section blocks
variable {msg : Message} {ids : List Bytes} {f : ContentBlock → ContentBlock}

@[simp] theorem blocksOf_mapBlocks : blocksOf (mapBlocks f msg) = (blocksOf msg).map f := by
  cases hc : msg.content <;> simp [blocksOf, mapBlocks, hc]

@[simp] theorem mapBlocks_source : (mapBlocks f msg).source = msg.source := by
  cases hc : msg.content <;> simp [mapBlocks, hc]

@[simp] theorem mapBlocks_role : (mapBlocks f msg).role = msg.role := by
  cases hc : msg.content <;> simp [mapBlocks, hc]

theorem mapBlocks_text {text : Bytes} (h : msg.content = .text text) : mapBlocks f msg = msg := by
  simp [mapBlocks, h]

theorem length_processed_le {n : ℕ} (h : n < 10 ^ 100) : (processed n).length ≤ 134 := by
  have hd := Text.decimal_length_le (k := 100) (by decide) h
  have h1 : (ascii "[Tool output processed ").length = 23 := by decide
  have h2 : (ascii " ").length = 1 := by decide
  have h3 : (ascii " bytes]").length = 7 := by decide
  have h4 : emDash.length = 3 := rfl
  simp only [processed, List.length_append, h1, h2, h3, h4]
  omega

theorem strippable_processed {n : ℕ} (h : n < 10 ^ 100) (id : Bytes) (isError : Option Bool) :
    strippable (.toolResult id (processed n) isError) = none := by
  have hn : ¬ stripMinContentBytes < (processed n).length :=
    Nat.not_lt.mpr ((length_processed_le h).trans (by decide))
  simp [strippable, hn]

/-- A stripped result is a mark, the other blocks are as before. -/
theorem stripResult_cases (ids : List Bytes) (b : ContentBlock) :
    (stripResult ids b = b ∧ ∀ id, strippable b = some id → id ∉ ids) ∨
    ∃ id content isError, b = .toolResult id content isError ∧
      stripResult ids b = .toolResult id (processed content.length) isError := by
  cases b with
  | toolResult id content isError =>
    by_cases h : id ∈ ids
    · exact .inr ⟨id, content, isError, rfl, if_pos h⟩
    · refine .inl ⟨if_neg h, fun id' hs => ?_⟩
      simp only [strippable, Option.ite_none_right_eq_some, Option.some.injEq] at hs
      exact hs.2 ▸ h
  | text text => exact .inl ⟨rfl, fun id hs => by cases hs⟩
  | toolUse id name input => exact .inl ⟨rfl, fun id hs => by cases hs⟩

theorem stripUse_cases (ids : List Bytes) (b : ContentBlock) : stripUse ids b = b ∨
    ∃ id name input, b = .toolUse id name input ∧ stripUse ids b = .text (usedTool name) := by
  cases b with
  | toolUse id name input =>
    by_cases h : id ∈ ids
    · exact .inr ⟨id, name, input, rfl, if_pos h⟩
    · exact .inl (if_neg h)
  | text text => exact .inl rfl
  | toolResult id content isError => exact .inl rfl

theorem Small.stripResult (h : Small msg) : Small (mapBlocks (Context.stripResult ids) msg) := by
  intro id content isError hb
  rw [blocksOf_mapBlocks] at hb
  obtain ⟨b, hmem, he⟩ := List.mem_map.mp hb
  obtain ⟨hs, -⟩ | ⟨id', old, isError', rfl, hs⟩ := stripResult_cases ids b
  · rw [hs] at he
    exact h id content isError (he ▸ hmem)
  · rw [hs] at he
    cases he
    exact Nat.lt_of_le_of_lt (length_processed_le (h _ _ _ hmem)) (by decide)

theorem Small.stripUse (h : Small msg) : Small (mapBlocks (Context.stripUse ids) msg) := by
  intro id content isError hb
  rw [blocksOf_mapBlocks] at hb
  obtain ⟨b, hmem, he⟩ := List.mem_map.mp hb
  obtain hs | ⟨id', name, input, rfl, hs⟩ := stripUse_cases ids b
  · rw [hs] at he
    exact h id content isError (he ▸ hmem)
  · rw [hs] at he
    cases he

theorem strippables_stripResult (h : Small msg) : ∀ id ∈ strippables (mapBlocks (stripResult ids) msg),
    id ∈ strippables msg ∧ id ∉ ids := by
  intro id hid
  rw [strippables, blocksOf_mapBlocks] at hid
  obtain ⟨b', hb', hs'⟩ := List.mem_filterMap.mp hid
  obtain ⟨b, hmem, rfl⟩ := List.mem_map.mp hb'
  obtain ⟨hs, hout⟩ | ⟨id', old, isError', rfl, hs⟩ := stripResult_cases ids b
  · rw [hs] at hs'
    exact ⟨List.mem_filterMap.mpr ⟨b, hmem, hs'⟩, hout id hs'⟩
  · rw [hs, strippable_processed (h _ _ _ hmem)] at hs'
    cases hs'

theorem strippables_stripUse : ∀ id ∈ strippables (mapBlocks (stripUse ids) msg), id ∈ strippables msg := by
  intro id hid
  rw [strippables, blocksOf_mapBlocks] at hid
  obtain ⟨b', hb', hs'⟩ := List.mem_filterMap.mp hid
  obtain ⟨b, hmem, rfl⟩ := List.mem_map.mp hb'
  obtain hs | ⟨id', name, input, rfl, hs⟩ := stripUse_cases ids b
  · rw [hs] at hs'
    exact List.mem_filterMap.mpr ⟨b, hmem, hs'⟩
  · rw [hs] at hs'
    cases hs'

end blocks

section strips
variable {Q : ℕ → Message → Prop} {messages : List Message} {n : ℕ}

/-- A property of the messages at their places. -/
def Holds (Q : ℕ → Message → Prop) (messages : List Message) : Prop :=
  ∀ i msg, messages[i]? = some msg → Q i msg

/-- What the changes of the second pass keep. -/
structure Lasts (Q : ℕ → Message → Prop) : Prop where
  result : ∀ i ids msg, Q i msg → Q i (mapBlocks (stripResult ids) msg)
  use : ∀ i ids msg, Q i msg → Q i (mapBlocks (stripUse ids) msg)

private theorem Holds.modify {f : Message → Message} {j : ℕ} (h : Holds Q messages)
    (hf : ∀ msg, Q j msg → Q j (f msg)) : Holds Q (messages.modify j f) := by
  intro i msg hi
  rw [List.getElem?_modify] at hi
  obtain ⟨old, hold, rfl⟩ := Option.map_eq_some_iff.mp hi
  split
  · next he =>
    subst he
    exact hf old (h j old hold)
  · exact h i old hold

private theorem stripPair_fst (messages : List Message) (n idx : ℕ) (ids : List Bytes) :
    (stripPair (messages, n) (idx, ids)).1 = messages.modify idx (mapBlocks (stripResult ids)) ∨
    (0 < idx ∧ (stripPair (messages, n) (idx, ids)).1 =
      (messages.modify idx (mapBlocks (stripResult ids))).modify (idx - 1) (mapBlocks (stripUse ids))) := by
  unfold stripPair
  dsimp only
  split
  · next h => exact .inr ⟨of_decide_eq_true (Bool.and_eq_true_iff.mp h).1, rfl⟩
  · exact .inl rfl

theorem Lasts.stripPair (hQ : Lasts Q) (h : Holds Q messages) (resolved : ℕ × List Bytes) :
    Holds Q (Context.stripPair (messages, n) resolved).1 := by
  obtain ⟨idx, ids⟩ := resolved
  have hr := h.modify (hQ.result idx ids)
  obtain he | ⟨-, he⟩ := stripPair_fst messages n idx ids
  · rw [he]
    exact hr
  · rw [he]
    exact hr.modify (hQ.use _ ids)

theorem Lasts.foldl (hQ : Lasts Q) (rs : List (ℕ × List Bytes)) (h : Holds Q messages) :
    Holds Q (rs.foldl Context.stripPair (messages, n)).1 := by
  induction rs generalizing messages n with
  | nil => exact h
  | cons r rest ih => exact ih (hQ.stripPair h r)

theorem Lasts.strip (hQ : Lasts Q) (h : Holds Q messages) : Holds Q (stripResolvedToolPairs messages).1 :=
  hQ.foldl _ h

theorem length_foldl_stripPair (rs : List (ℕ × List Bytes)) :
    (rs.foldl stripPair (messages, n)).1.length = messages.length := by
  induction rs generalizing messages n with
  | nil => rfl
  | cons r rest ih =>
    obtain ⟨idx, ids⟩ := r
    have hstep : (stripPair (messages, n) (idx, ids)).1.length = messages.length := by
      obtain he | ⟨-, he⟩ := stripPair_fst messages n idx ids <;> simp [he]
    exact ih.trans hstep

/-- The results that may be stripped at a place lie within the given ones. -/
private def Within (ids : ℕ → List Bytes) (i : ℕ) (msg : Message) : Prop :=
  Small msg ∧ ∀ id ∈ strippables msg, id ∈ ids i

private theorem lasts_within (ids : ℕ → List Bytes) : Lasts (Within ids) where
  result _ _ _ h := ⟨h.1.stripResult, fun id hid => h.2 id (strippables_stripResult h.1 id hid).1⟩
  use _ _ _ h := ⟨h.1.stripUse, fun id hid => h.2 id (strippables_stripUse id hid)⟩

/-- After its pair was stripped, a message has nothing to strip. -/
private theorem stripped_within {ids : ℕ → List Bytes} {rs : List (ℕ × List Bytes)} {j : ℕ}
    (hmem : (j, ids j) ∈ rs) (h : Holds (Within ids) messages) :
    Holds (Within fun i => if i = j then [] else ids i) (rs.foldl stripPair (messages, n)).1 := by
  induction rs generalizing messages n with
  | nil => cases hmem
  | cons r rest ih =>
    obtain rfl | hmem := List.mem_cons.mp hmem
    · have hr : Holds (Within fun i => if i = j then [] else ids i)
          (messages.modify j (mapBlocks (stripResult (ids j)))) := by
        intro i msg hi
        rw [List.getElem?_modify] at hi
        obtain ⟨old, hold, rfl⟩ := Option.map_eq_some_iff.mp hi
        obtain ⟨hs, hw⟩ := h i old hold
        split
        · next he =>
          subst he
          refine ⟨hs.stripResult, fun id hid => ?_⟩
          obtain ⟨hin, hout⟩ := strippables_stripResult hs id hid
          exact absurd (hw id hin) hout
        · next hne => exact ⟨hs, fun id hid => by simpa [Ne.symm hne] using hw id hid⟩
      have hstep : Holds (Within fun i => if i = j then [] else ids i) (stripPair (messages, n) (j, ids j)).1 := by
        obtain he | ⟨-, he⟩ := stripPair_fst messages n j (ids j)
        · rw [he]
          exact hr
        · rw [he]
          exact hr.modify ((lasts_within _).use _ _)
      exact (lasts_within _).foldl rest hstep
    · exact ih hmem ((lasts_within ids).stripPair h r)

/-- A tool result message that enough assistant messages follow, with results worth stripping. -/
def Resolved (messages : List Message) (cutoff i : ℕ) (msg : Message) : Prop :=
  isToolResult msg.source = true ∧ strippables msg ≠ [] ∧
    resolvedAfterAssistantTurns ≤ ((messages.take cutoff).drop (i + 1)).countP (·.role = .assistant)

theorem resolvedAt_eq_some {cutoff i : ℕ} {r : ℕ × List Bytes} : resolvedAt messages cutoff i = some r ↔
    ∃ msg, messages[i]? = some msg ∧ Resolved messages cutoff i msg ∧ r = (i, strippables msg) := by
  unfold resolvedAt
  cases hm : messages[i]? with
  | none => simp
  | some msg =>
    cases hc : msg.content with
    | text text =>
      have hs : strippables msg = [] := by simp [strippables, blocksOf, hc]
      simp [hc, Resolved, hs]
    | blocks blocks =>
      have hs : strippables msg = blocks.filterMap strippable := by simp [strippables, blocksOf, hc]
      simp [hc, Resolved, hs]
      constructor
      · rintro ⟨htool, hcount, hids, rfl⟩
        exact ⟨⟨htool, hids, hcount⟩, rfl⟩
      · rintro ⟨⟨htool, hids, hcount⟩, rfl⟩
        exact ⟨htool, hcount, hids, rfl⟩

/-- Role and source of each message, and the content of those that hold plain text, stay. -/
theorem strip_like (messages : List Message) : Holds (fun i msg => ∀ old, messages[i]? = some old →
    msg.source = old.source ∧ msg.role = old.role ∧ ∀ text, old.content = .text text → msg = old)
    (stripResolvedToolPairs messages).1 := by
  have hmap : ∀ (f : ContentBlock → ContentBlock) (old msg : Message),
      (msg.source = old.source ∧ msg.role = old.role ∧ ∀ text, old.content = .text text → msg = old) →
      ((mapBlocks f msg).source = old.source ∧ (mapBlocks f msg).role = old.role ∧
        ∀ text, old.content = .text text → mapBlocks f msg = old) := by
    rintro f old msg ⟨hs, hr, ht⟩
    refine ⟨mapBlocks_source.trans hs, mapBlocks_role.trans hr, fun text hc => ?_⟩
    rw [ht text hc, mapBlocks_text hc]
  refine Lasts.strip ⟨fun i ids msg h old hold => hmap _ old msg (h old hold),
    fun i ids msg h old hold => hmap _ old msg (h old hold)⟩ fun i msg hmsg old hold => ?_
  rw [hmsg] at hold
  cases hold
  exact ⟨rfl, rfl, fun _ _ => rfl⟩

theorem length_strip (messages : List Message) : (stripResolvedToolPairs messages).1.length = messages.length :=
  length_foldl_stripPair _

/-- After the pass no message that was resolved has anything to strip. -/
theorem strip_clean (hs : ∀ msg ∈ messages, Small msg) {i : ℕ} {msg : Message}
    (hmsg : (stripResolvedToolPairs messages).1[i]? = some msg)
    (hi : i < messages.length - microCompactProtectedRecent) (hsource : isToolResult msg.source = true)
    (hcount : resolvedAfterAssistantTurns ≤ ((messages.take (messages.length - microCompactProtectedRecent)).drop
      (i + 1)).countP (·.role = .assistant)) : strippables msg = [] := by
  have hlt : i < messages.length := hi.trans_le (Nat.sub_le _ _)
  have hold : messages[i]? = some messages[i] := List.getElem?_eq_getElem hlt
  have hwithin : Holds (Within fun j => (messages[j]?.map strippables).getD []) messages := fun j other hj =>
    ⟨hs other (List.mem_of_getElem? hj), fun id hid => by simpa [hj] using hid⟩
  have hempty : ∀ l : List Bytes, (∀ id ∈ l, id ∈ ([] : List Bytes)) → l = [] := fun l h =>
    List.eq_nil_iff_forall_not_mem.mpr fun id hid => List.not_mem_nil (h id hid)
  by_cases hids : strippables messages[i] = []
  · obtain ⟨-, hin⟩ := (lasts_within _).strip hwithin i msg hmsg
    exact hempty _ fun id hid => by simpa [hold, hids] using hin id hid
  · have hres : Resolved messages (messages.length - microCompactProtectedRecent) i messages[i] := by
      refine ⟨?_, hids, hcount⟩
      rw [← (strip_like messages i msg hmsg _ hold).1]
      exact hsource
    have hmem : (i, (messages[i]?.map strippables).getD []) ∈
        (List.range (messages.length - microCompactProtectedRecent)).filterMap
          (resolvedAt messages (messages.length - microCompactProtectedRecent)) := by
      refine List.mem_filterMap.mpr ⟨i, List.mem_range.mpr hi, resolvedAt_eq_some.mpr ⟨_, hold, hres, ?_⟩⟩
      rw [hold]
      rfl
    obtain ⟨-, hin⟩ := stripped_within hmem hwithin i msg hmsg
    exact hempty _ fun id hid => by simpa using hin id hid

/-- Without a resolved message the pass changes nothing. -/
theorem strip_eq_self (h : ∀ i msg, messages[i]? = some msg →
    ¬ Resolved messages (messages.length - microCompactProtectedRecent) i msg) :
    (stripResolvedToolPairs messages).1 = messages := by
  have hnone : (List.range (messages.length - microCompactProtectedRecent)).filterMap
      (resolvedAt messages (messages.length - microCompactProtectedRecent)) = [] := by
    refine List.filterMap_eq_nil_iff.mpr fun i _ => ?_
    by_contra hne
    obtain ⟨r, hr⟩ := Option.ne_none_iff_exists'.mp hne
    obtain ⟨msg, hmsg, hres, -⟩ := resolvedAt_eq_some.mp hr
    exact h i msg hmsg hres
  dsimp only [stripResolvedToolPairs]
  rw [hnone]
  rfl

end strips
end PulseNull.Context
