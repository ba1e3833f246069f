import PulseNull.Machine
import PulseNull.Context.Truncation
import PulseNull.Context.Groups
import PulseNull.Context.Strips

/-! Passes over a growing conversation: when a second one changes nothing, and what the markers in tool
results say of the results as they came. -/
namespace PulseNull.Context
open Session (Role ContentBlock MessageContent MessageSource Message)
open Text (ascii newline lineTexts joinLines)

def cuttable : ContentBlock → Option Bytes
  | .text text => some text
  | .toolResult _ content isError => if isError = some true then none else some content
  | .toolUse .. => none

/-- The texts of a message that a pass may truncate. -/
def cuttables (msg : Message) : List Bytes :=
  match msg.content with
  | .text text => [text]
  | .blocks blocks => blocks.filterMap cuttable

/-- A message that the truncation pass leaves as it is. -/
def Still (msg : Message) : Prop := ∀ text ∈ cuttables msg, cut text = text

/-- What a result can be after some passes: as it came, truncated once, or stripped. -/
def Told (original content : Bytes) : Prop :=
  content = original ∨ (content = cut original ∧ cut content = content) ∨
    ∃ n, n < 10 ^ 100 ∧ content = processed n

/-- A result of one of the messages that came in. -/
def Origin (pushed : List Message) (id content : Bytes) (isError : Option Bool) : Prop :=
  ∃ msg ∈ pushed, ∃ original, .toolResult id original isError ∈ blocksOf msg ∧ original.length < 2 ^ 64 ∧
    Told original content

structure Settled (pushed : List Message) (msg : Message) : Prop where
  texts : ∀ text ∈ cuttables msg, cut (cut text) = cut text
  names : ∀ id name input, .toolUse id name input ∈ blocksOf msg → cut (usedTool name) = usedTool name
  plain : isSystem msg = true → ∃ text, msg.content = .text text
  results : ∀ id content isError, .toolResult id content isError ∈ blocksOf msg → Origin pushed id content isError

/-! The truncation pass. -/

def cutBlock : ContentBlock → ContentBlock
  | .text text => .text (cut text)
  | .toolResult id content isError => .toolResult id (if isError = some true then content else cut content) isError
  | .toolUse id name input => .toolUse id name input

theorem truncateBlock_fst (b : ContentBlock) : (truncateBlock b).1 = cutBlock b := by
  cases b with
  | text text =>
    rw [cutBlock, cut, truncateBlock]
    cases tryTruncateString text <;> rfl
  | toolResult id content isError =>
    rw [cutBlock, cut, truncateBlock]
    split
    · rfl
    · cases tryTruncateString content <;> rfl
  | toolUse id name input => rfl

theorem truncateMessage_text {msg : Message} {text : Bytes} (h : msg.content = .text text) :
    (truncateMessage msg).1 = { msg with content := .text (cut text) } := by
  obtain ⟨role, content, source⟩ := msg
  cases h
  dsimp only [truncateMessage]
  cases ht : tryTruncateString text <;> simp [cut, ht]

theorem truncateMessage_blocks {msg : Message} {blocks : List ContentBlock} (h : msg.content = .blocks blocks) :
    (truncateMessage msg).1 = { msg with content := .blocks (blocks.map cutBlock) } := by
  obtain ⟨role, content, source⟩ := msg
  cases h
  dsimp only [truncateMessage]
  rw [List.map_map]
  congr 2
  exact List.map_congr_left fun b _ => truncateBlock_fst b

theorem truncateMessage_like (msg : Message) :
    (truncateMessage msg).1.source = msg.source ∧ (truncateMessage msg).1.role = msg.role := by
  cases hc : msg.content with
  | text text => rw [truncateMessage_text hc]; exact ⟨rfl, rfl⟩
  | blocks blocks => rw [truncateMessage_blocks hc]; exact ⟨rfl, rfl⟩

theorem cuttable_cutBlock (b : ContentBlock) : cuttable (cutBlock b) = (cuttable b).map cut := by
  cases b with
  | text text => rfl
  | toolResult id content isError =>
    by_cases h : isError = some true <;> simp [cutBlock, cuttable, h]
  | toolUse id name input => rfl

theorem cuttables_truncateMessage (msg : Message) :
    cuttables (truncateMessage msg).1 = (cuttables msg).map cut := by
  cases hc : msg.content with
  | text text =>
    rw [truncateMessage_text hc]
    simp [cuttables, hc]
  | blocks blocks =>
    rw [truncateMessage_blocks hc]
    simp only [cuttables, hc, List.filterMap_map, List.map_filterMap]
    congr 1
    exact funext cuttable_cutBlock

theorem truncateMessage_still {msg : Message} (h : Still msg) : (truncateMessage msg).1 = msg := by
  obtain ⟨role, content, source⟩ := msg
  cases content with
  | text text =>
    rw [truncateMessage_text rfl, h text (by simp [cuttables])]
  | blocks blocks =>
    rw [truncateMessage_blocks rfl]
    have hb : ∀ b ∈ blocks, cutBlock b = b := by
      intro b hb
      have hcut : ∀ text, cuttable b = some text → cut text = text := fun text ht =>
        h text (List.mem_filterMap.mpr ⟨b, hb, ht⟩)
      cases b with
      | text text => rw [cutBlock, hcut text rfl]
      | toolResult id content isError =>
        by_cases he : isError = some true
        · rw [cutBlock, if_pos he]
        · rw [cutBlock, if_neg he, hcut content (if_neg he)]
      | toolUse id name input => rfl
    rw [List.map_congr_left hb, List.map_id']

/-- The truncation pass: the messages outside the recent window. -/
theorem truncate_fst (messages : List Message) : (truncateLargeBlocks messages).1 =
    (messages.take (messages.length - microCompactProtectedRecent)).map (fun msg => (truncateMessage msg).1) ++
      messages.drop (messages.length - microCompactProtectedRecent) := by
  rw [truncateLargeBlocks]
  simp only [List.map_map]
  rfl

theorem length_truncate (messages : List Message) : (truncateLargeBlocks messages).1.length = messages.length := by
  rw [truncate_fst, List.length_append, List.length_map, List.length_take, List.length_drop]
  omega

theorem truncate_getElem? (messages : List Message) (i : ℕ) : (truncateLargeBlocks messages).1[i]? =
    messages[i]?.map fun msg =>
      if i < messages.length - microCompactProtectedRecent then (truncateMessage msg).1 else msg := by
  rw [truncate_fst]
  by_cases hi : i < messages.length - microCompactProtectedRecent
  · have hlen : i < ((messages.take (messages.length - microCompactProtectedRecent)).map
        fun msg => (truncateMessage msg).1).length := by
      rw [List.length_map, List.length_take]
      omega
    rw [List.getElem?_append_left hlen, List.getElem?_map, List.getElem?_take_of_lt hi]
    simp only [if_pos hi]
  · have hlen : ((messages.take (messages.length - microCompactProtectedRecent)).map
        fun msg => (truncateMessage msg).1).length = messages.length - microCompactProtectedRecent := by
      rw [List.length_map, List.length_take]
      omega
    rw [List.getElem?_append_right (by rw [hlen]; exact Nat.not_lt.mp hi), hlen, List.getElem?_drop,
      Nat.add_sub_cancel' (Nat.not_lt.mp hi)]
    simp only [if_neg hi, Option.map_id']

theorem truncate_eq_self {messages : List Message}
    (h : ∀ i msg, messages[i]? = some msg → i < messages.length - microCompactProtectedRecent → Still msg) :
    (truncateLargeBlocks messages).1 = messages := by
  apply List.ext_getElem?
  intro i
  rw [truncate_getElem?]
  cases hm : messages[i]? with
  | none => rfl
  | some msg =>
    rw [Option.map_some]
    split
    · next hi => rw [truncateMessage_still (h i msg hm hi)]
    · rfl

/-! What the passes keep of a settled message. -/

section settled
variable {pushed : List Message} {msg : Message} {ids : List Bytes}

theorem cut_processed {n : ℕ} (h : n < 10 ^ 100) : cut (processed n) = processed n :=
  Whole.cut_eq (.inl ((Nat.div_le_self _ _).trans ((length_processed_le h).trans (by decide))))

theorem Told.small {original content : Bytes} (h : Told original content) (hlen : original.length < 2 ^ 64) :
    content.length < 10 ^ 100 := by
  obtain rfl | ⟨rfl, -⟩ | ⟨n, hn, rfl⟩ := h
  · omega
  · have := length_cut_le (hlen.trans (by decide))
    omega
  · exact (length_processed_le hn).trans_lt (by decide)

theorem Told.cut {original content : Bytes} (h : Told original content)
    (hcut : Context.cut (Context.cut content) = Context.cut content) : Told original (Context.cut content) := by
  obtain rfl | ⟨rfl, hc⟩ | ⟨n, hn, rfl⟩ := h
  · exact .inr (.inl ⟨rfl, hcut⟩)
  · rw [hc]
    exact .inr (.inl ⟨rfl, hc⟩)
  · exact .inr (.inr ⟨n, hn, cut_processed hn⟩)

theorem Settled.small (h : Settled pushed msg) : Small msg := by
  intro id content isError hb
  obtain ⟨_, -, original, -, hlen, htold⟩ := h.results id content isError hb
  exact htold.small hlen

theorem mem_cuttables_blocks {text : Bytes} (h : text ∈ cuttables msg) :
    msg.content = .text text ∨ ∃ b ∈ blocksOf msg, cuttable b = some text := by
  cases hc : msg.content with
  | text text' =>
    simp only [cuttables, hc, List.mem_singleton] at h
    exact .inl (by rw [h])
  | blocks blocks =>
    simp only [cuttables, hc] at h
    obtain ⟨b, hb, ht⟩ := List.mem_filterMap.mp h
    exact .inr ⟨b, by simpa [blocksOf, hc] using hb, ht⟩

theorem mem_cuttables_of_block {b : ContentBlock} {text : Bytes} (hb : b ∈ blocksOf msg)
    (ht : cuttable b = some text) :
    text ∈ cuttables msg := by
  cases hc : msg.content with
  | text text' => simp [blocksOf, hc] at hb
  | blocks blocks =>
    simp only [blocksOf, hc] at hb
    simp only [cuttables, hc]
    exact List.mem_filterMap.mpr ⟨b, hb, ht⟩

/-- Blocks that are truncated or stay. -/
theorem Settled.cuts {f : ContentBlock → ContentBlock} (hf : ∀ b, f b = b ∨ f b = cutBlock b)
    (h : Settled pushed msg) : Settled pushed (mapBlocks f msg) where
  texts text ht := by
    obtain hc | ⟨b', hb', hcut⟩ := mem_cuttables_blocks ht
    · cases hm : msg.content with
      | text text' => exact h.texts text (by rwa [mapBlocks_text hm] at ht)
      | blocks blocks => simp [mapBlocks, hm] at hc
    · rw [blocksOf_mapBlocks] at hb'
      obtain ⟨b, hb, rfl⟩ := List.mem_map.mp hb'
      obtain hs | hs := hf b
      · exact h.texts text (mem_cuttables_of_block hb (hs ▸ hcut))
      · rw [hs, cuttable_cutBlock] at hcut
        obtain ⟨old, hold, rfl⟩ := Option.map_eq_some_iff.mp hcut
        have hsettled := h.texts old (mem_cuttables_of_block hb hold)
        rw [hsettled, hsettled]
  names id name input hb := by
    rw [blocksOf_mapBlocks] at hb
    obtain ⟨b, hmem, he⟩ := List.mem_map.mp hb
    obtain hs | hs := hf b
    · exact h.names id name input (by rwa [← he, hs])
    · rw [hs] at he
      cases b with
      | toolUse id' name' input' =>
        cases he
        exact h.names _ _ _ hmem
      | text text => cases he
      | toolResult id' content isError => cases he
  plain hsys := by
    rw [isSystem, mapBlocks_source] at hsys
    obtain ⟨text, hc⟩ := h.plain hsys
    exact ⟨text, by rw [mapBlocks_text hc, hc]⟩
  results id content isError hb := by
    rw [blocksOf_mapBlocks] at hb
    obtain ⟨b, hmem, he⟩ := List.mem_map.mp hb
    obtain hs | hs := hf b
    · exact h.results id content isError (by rwa [← he, hs])
    · rw [hs] at he
      cases b with
      | text text => cases he
      | toolUse id' name input => cases he
      | toolResult id' old isError' =>
        cases he
        obtain ⟨origin, hin, original, hblock, hlen, htold⟩ := h.results _ _ _ hmem
        refine ⟨origin, hin, original, hblock, hlen, ?_⟩
        split
        · exact htold
        · next herr => exact htold.cut (h.texts old (mem_cuttables_of_block hmem (if_neg herr)))

theorem Settled.truncate (h : Settled pushed msg) : Settled pushed (truncateMessage msg).1 := by
  cases hc : msg.content with
  | text text =>
    have hnone : ∀ b, b ∉ blocksOf (truncateMessage msg).1 := by
      rw [truncateMessage_text hc]
      exact fun b => List.not_mem_nil
    refine ⟨fun t ht => ?_, fun _ _ _ hb => absurd hb (hnone _), fun _ => ?_, fun _ _ _ hb => absurd hb (hnone _)⟩
    · rw [cuttables_truncateMessage] at ht
      obtain ⟨old, hold, rfl⟩ := List.mem_map.mp ht
      rw [h.texts old hold, h.texts old hold]
    · exact ⟨cut text, by rw [truncateMessage_text hc]⟩
  | blocks blocks =>
    have he : (truncateMessage msg).1 = mapBlocks cutBlock msg := by
      rw [truncateMessage_blocks hc, mapBlocks, hc]
    exact he ▸ h.cuts fun b => .inr rfl

/-- How the second pass changes a block: it stays, or it becomes a mark. -/
def Marks (f : ContentBlock → ContentBlock) : Prop := ∀ b, f b = b ∨
  (∃ id old isError, b = .toolResult id old isError ∧ f b = .toolResult id (processed old.length) isError) ∨
    ∃ id name input, b = .toolUse id name input ∧ f b = .text (usedTool name)

theorem marks_stripResult (ids : List Bytes) : Marks (stripResult ids) := fun b =>
  (stripResult_cases ids b).imp And.left .inl

theorem marks_stripUse (ids : List Bytes) : Marks (stripUse ids) := fun b => (stripUse_cases ids b).imp_right .inr

/-- A text of a marked message is one of the message, or a mark that no pass truncates. -/
theorem mem_cuttables_marks {f : ContentBlock → ContentBlock} (hf : Marks f) (h : Settled pushed msg) {text : Bytes}
    (ht : text ∈ cuttables (mapBlocks f msg)) : text ∈ cuttables msg ∨ cut text = text := by
  obtain hc | ⟨b', hb', hcut⟩ := mem_cuttables_blocks ht
  · cases hm : msg.content with
    | text text' => exact .inl (by rwa [mapBlocks_text hm] at ht)
    | blocks blocks => simp [mapBlocks, hm] at hc
  · rw [blocksOf_mapBlocks] at hb'
    obtain ⟨b, hb, rfl⟩ := List.mem_map.mp hb'
    obtain hs | ⟨id, old, isError, rfl, hs⟩ | ⟨id, name, input, rfl, hs⟩ := hf b
    · exact .inl (mem_cuttables_of_block hb (hs ▸ hcut))
    · rw [hs] at hcut
      simp only [cuttable, Option.ite_none_left_eq_some, Option.some.injEq] at hcut
      exact .inr (hcut.2 ▸ cut_processed (h.small _ _ _ hb))
    · rw [hs] at hcut
      cases hcut
      exact .inr (h.names _ _ _ hb)

theorem Settled.marks {f : ContentBlock → ContentBlock} (hf : Marks f) (h : Settled pushed msg) :
    Settled pushed (mapBlocks f msg) where
  texts text ht := by
    obtain hin | hcut := mem_cuttables_marks hf h ht
    · exact h.texts text hin
    · rw [hcut, hcut]
  names id name input hb := by
    rw [blocksOf_mapBlocks] at hb
    obtain ⟨b, hmem, he⟩ := List.mem_map.mp hb
    obtain hs | ⟨id', old, isError, rfl, hs⟩ | ⟨id', name', input', rfl, hs⟩ := hf b
    · exact h.names id name input (by rwa [← he, hs])
    · rw [hs] at he
      cases he
    · rw [hs] at he
      cases he
  plain hsys := by
    rw [isSystem, mapBlocks_source] at hsys
    obtain ⟨text, hc⟩ := h.plain hsys
    exact ⟨text, by rw [mapBlocks_text hc, hc]⟩
  results id content isError hb := by
    rw [blocksOf_mapBlocks] at hb
    obtain ⟨b, hmem, he⟩ := List.mem_map.mp hb
    obtain hs | ⟨id', old, isError', rfl, hs⟩ | ⟨id', name', input', rfl, hs⟩ := hf b
    · exact h.results id content isError (by rwa [← he, hs])
    · rw [hs] at he
      cases he
      obtain ⟨origin, hin, original, hblock, hlen, htold⟩ := h.results _ _ _ hmem
      exact ⟨origin, hin, original, hblock, hlen, .inr (.inr ⟨_, htold.small hlen, rfl⟩)⟩
    · rw [hs] at he
      cases he

theorem Still.marks {f : ContentBlock → ContentBlock} (hf : Marks f) (h : Settled pushed msg) (hs : Still msg) :
    Still (mapBlocks f msg) := fun text ht =>
  (mem_cuttables_marks hf h ht).elim (hs text) id

theorem Settled.still (h : Settled pushed msg) : Still (truncateMessage msg).1 := by
  intro text ht
  rw [cuttables_truncateMessage] at ht
  obtain ⟨old, hold, rfl⟩ := List.mem_map.mp ht
  exact h.texts old hold

end settled
end PulseNull.Context
