import PulseNull.Machine
import PulseNull.Context.Settling

/-! Passes over a growing conversation: when a second one changes nothing, and what the markers in tool
results say of the results as they came. -/
namespace PulseNull.Context
open Session (Role ContentBlock MessageContent MessageSource Message)
open Text (ascii newline lineTexts joinLines)

/-- The texts of a group as a pass puts them together, with so many messages after the group. -/
def agedTexts (following : ℕ) : List Message → List Bytes
  | [] => []
  | msg :: rest =>
    (if microCompactProtectedRecent ≤ rest.length + following then kept (extractMessageText msg)
      else extractMessageText msg) :: agedTexts following rest

/-- The text of each merged message lasts, and outside the recent window no pass truncates it. -/
def Mergeable (messages : List Message) : Prop :=
  ∀ before group after, groups messages = before ++ group :: after → group.rest ≠ [] →
    Lasting (together (agedTexts (ungroup after).length group.messages)) ∧
    (microCompactProtectedRecent ≤ after.length →
      Steady (together (agedTexts (ungroup after).length group.messages)))

/-- The messages before the third pass, by those before the first. -/
def beforeCollapse (messages : List Message) : List Message :=
  (stripResolvedToolPairs (truncateLargeBlocks messages).1).1

theorem microCompact_fst {messages : List Message} (h : 3 ≤ messages.length) :
    (microCompact messages).1 = (groups (beforeCollapse messages)).map Group.merged := by
  rw [microCompact, if_neg (Nat.not_lt.mpr h)]
  exact collapse_eq _

/-! The groups of the messages before and after the first two passes. -/

inductive AgedFrom (n : ℕ) : List Message → List Message → Prop where
  | nil : AgedFrom n [] []
  | cons {old msg : Message} {olds msgs : List Message} (tail : AgedFrom n olds msgs)
      (system : isSystem msg = isSystem old)
      (text : isSystem old = true → extractMessageText msg =
        if microCompactProtectedRecent ≤ olds.length + n then kept (extractMessageText old)
        else extractMessageText old) : AgedFrom n (old :: olds) (msg :: msgs)

inductive Aligned : List Group → List Group → Prop where
  | nil : Aligned [] []
  | cons {old group : Group} {olds gs : List Group} (tail : Aligned olds gs)
      (aged : AgedFrom (ungroup olds).length old.messages group.messages) : Aligned (old :: olds) (group :: gs)

section aged
variable {n : ℕ} {olds msgs : List Message}

theorem AgedFrom.length_eq (h : AgedFrom n olds msgs) : msgs.length = olds.length := by
  induction h with
  | nil => rfl
  | cons _ _ _ ih => rw [List.length_cons, List.length_cons, ih]

theorem AgedFrom.texts (h : AgedFrom n olds msgs) (hsys : ∀ msg ∈ msgs, isSystem msg = true) :
    msgs.map extractMessageText = agedTexts n olds := by
  induction h with
  | nil => rfl
  | cons _ system text ih =>
    obtain ⟨hmsg, hrest⟩ := List.forall_mem_cons.mp hsys
    rw [List.map_cons, agedTexts, ih hrest, text (system ▸ hmsg)]

theorem agedFrom_of_getElem? (hlen : msgs.length = olds.length)
    (h : ∀ i old msg, olds[i]? = some old → msgs[i]? = some msg → isSystem msg = isSystem old ∧
      (isSystem old = true → extractMessageText msg =
        if microCompactProtectedRecent ≤ olds.length - i - 1 then kept (extractMessageText old)
        else extractMessageText old)) : AgedFrom 0 olds msgs := by
  induction olds generalizing msgs with
  | nil =>
    obtain rfl := List.length_eq_zero_iff.mp hlen
    exact .nil
  | cons old rest ih =>
    cases msgs with
    | nil => cases hlen
    | cons msg msgs =>
      obtain ⟨hs, ht⟩ := h 0 old msg rfl rfl
      refine .cons (ih (Nat.succ_injective hlen) fun i old' msg' ho hm => ?_) hs ht
      obtain ⟨hs', ht'⟩ := h (i + 1) old' msg' ho hm
      rw [List.length_cons, Nat.add_sub_add_right] at ht'
      exact ⟨hs', ht'⟩

theorem aligned_groups (h : AgedFrom 0 olds msgs) : Aligned (groups olds) (groups msgs) := by
  induction h with
  | nil => exact .nil
  | @cons old msg olds msgs tail system text ih =>
    have hlen : (ungroup (groups olds)).length = olds.length := by rw [ungroup_groups]
    rw [groups, groups]
    cases ho : groups olds with
    | nil =>
      rw [ho] at ih hlen
      cases hm : groups msgs with
      | nil => exact .cons .nil (.cons .nil system (by simpa [← hlen, ungroup] using text))
      | cons group more => rw [hm] at ih; cases ih
    | cons group more =>
      rw [ho] at ih hlen
      cases hm : groups msgs with
      | nil => rw [hm] at ih; cases ih
      | cons group' more' =>
        rw [hm] at ih
        obtain _ | ⟨hmore, haged⟩ := ih
        have hfirst : isSystem group'.first = isSystem group.first := by
          obtain _ | ⟨_, hsys, _⟩ := haged
          exact hsys
        have hsum : (ungroup (group :: more)).length = group.messages.length + (ungroup more).length :=
          List.length_append
        rw [consGroup, consGroup, system, hfirst]
        split
        · refine .cons hmore (.cons haged system ?_)
          rwa [← hsum, hlen]
        · refine .cons (.cons hmore haged) (.cons .nil system ?_)
          rwa [List.length_nil, Nat.zero_add, hlen]

theorem Aligned.length_eq {gs gs' : List Group} (h : Aligned gs gs') : gs'.length = gs.length := by
  induction h with
  | nil => rfl
  | cons _ _ ih => rw [List.length_cons, List.length_cons, ih]

theorem Aligned.find {gs gs' before' after' : List Group} {group' : Group} (h : Aligned gs gs')
    (he : gs' = before' ++ group' :: after') : ∃ before group after, gs = before ++ group :: after ∧
      after.length = after'.length ∧ AgedFrom (ungroup after).length group.messages group'.messages := by
  induction h generalizing before' with
  | nil => simp at he
  | @cons old group olds gs tail aged ih =>
    cases before' with
    | nil =>
      obtain ⟨rfl, rfl⟩ := List.cons.inj he
      exact ⟨[], old, olds, rfl, tail.length_eq.symm, aged⟩
    | cons first before' =>
      obtain ⟨rfl, hrest⟩ := List.cons.inj he
      obtain ⟨before, group, after, rfl, hlen, haged⟩ := ih hrest
      exact ⟨old :: before, group, after, rfl, hlen, haged⟩

end aged

/-! One pass over settled messages. -/

section pass
variable {pushed messages : List Message}

theorem length_beforeCollapse (messages : List Message) : (beforeCollapse messages).length = messages.length := by
  rw [beforeCollapse, length_strip, length_truncate]

theorem settled_truncate (h : ∀ msg ∈ messages, Settled pushed msg) : Holds (fun i msg => Settled pushed msg ∧
    (i < messages.length - microCompactProtectedRecent → Still msg)) (truncateLargeBlocks messages).1 := by
  intro i msg hi
  rw [truncate_getElem?] at hi
  obtain ⟨old, hold, rfl⟩ := Option.map_eq_some_iff.mp hi
  have hs := h old (List.mem_of_getElem? hold)
  split
  · exact ⟨hs.truncate, fun _ => hs.still⟩
  · next hout => exact ⟨hs, fun hin => absurd hin hout⟩

theorem settled_beforeCollapse (h : ∀ msg ∈ messages, Settled pushed msg) : Holds (fun i msg => Settled pushed msg ∧
    (i < messages.length - microCompactProtectedRecent → Still msg)) (beforeCollapse messages) := by
  refine Lasts.strip ⟨fun i ids msg hm => ?_, fun i ids msg hm => ?_⟩ (settled_truncate h)
  · exact ⟨hm.1.marks (marks_stripResult ids), fun hi => Still.marks (marks_stripResult ids) hm.1 (hm.2 hi)⟩
  · exact ⟨hm.1.marks (marks_stripUse ids), fun hi => Still.marks (marks_stripUse ids) hm.1 (hm.2 hi)⟩

theorem settled_of_mem (h : ∀ msg ∈ messages, Settled pushed msg) :
    ∀ msg ∈ beforeCollapse messages, Settled pushed msg := by
  intro msg hm
  obtain ⟨i, hi⟩ := List.mem_iff_getElem?.mp hm
  exact (settled_beforeCollapse h i msg hi).1

theorem aged_beforeCollapse (h : ∀ msg ∈ messages, Settled pushed msg) :
    AgedFrom 0 messages (beforeCollapse messages) := by
  refine agedFrom_of_getElem? (length_beforeCollapse messages) fun i old msg hold hmsg => ?_
  have htrunc : (truncateLargeBlocks messages).1[i]? =
      some (if i < messages.length - microCompactProtectedRecent then (truncateMessage old).1 else old) := by
    rw [truncate_getElem?, hold, Option.map_some]
  obtain ⟨hsource, -, hplain⟩ := strip_like _ i msg hmsg _ htrunc
  have hlike : isSystem msg = isSystem old := by
    rw [isSystem, isSystem, hsource]
    split
    · rw [(truncateMessage_like old).1]
    · rfl
  refine ⟨hlike, fun hsys => ?_⟩
  have hlt : i < messages.length := List.getElem?_eq_some_iff.mp hold |>.1
  have hiff : i < messages.length - microCompactProtectedRecent ↔
      microCompactProtectedRecent ≤ messages.length - i - 1 := by omega
  obtain ⟨text, hc⟩ := (h old (List.mem_of_getElem? hold)).plain hsys
  have hold' : extractMessageText old = text := by rw [extractMessageText, hc]
  rw [hold', ← cut_eq_kept]
  by_cases hin : i < messages.length - microCompactProtectedRecent
  · rw [if_pos hin] at hplain
    rw [if_pos (hiff.mp hin), hplain (cut text) (by rw [truncateMessage_text hc]), truncateMessage_text hc]
    rfl
  · rw [if_neg hin] at hplain
    rw [if_neg (hiff.not.mp hin), hplain text hc, hold']

/-- A merged group is one plain text, as the condition on the conversation has it. -/
theorem merged_text (h : ∀ msg ∈ messages, Settled pushed msg) {before after : List Group} {group : Group}
    (he : groups (beforeCollapse messages) = before ++ group :: after) (hrest : group.rest ≠ [])
    (hm : Mergeable messages) : ∃ text, group.merged.content = .text text ∧ Lasting text ∧
      (microCompactProtectedRecent ≤ after.length → Steady text) := by
  have hsys := groups_system (beforeCollapse messages) group (by rw [he]; simp) hrest
  obtain ⟨before', group', after', he', hlen, haged⟩ := (aligned_groups (aged_beforeCollapse h)).find he
  have hmem : group.first ∈ beforeCollapse messages := by
    rw [← ungroup_groups (beforeCollapse messages), he]
    simp [ungroup, Group.messages]
  obtain ⟨text, hc⟩ := (settled_of_mem h _ hmem).plain (hsys _ List.mem_cons_self)
  have hrest' : group'.rest ≠ [] := by
    have hl := haged.length_eq
    rw [Group.messages, Group.messages, List.length_cons, List.length_cons, Nat.add_right_cancel_iff] at hl
    intro h0
    rw [h0] at hl
    exact hrest (List.length_eq_zero_iff.mp hl)
  refine ⟨_, Group.merged_content hc, ?_⟩
  rw [haged.texts hsys, ← hlen]
  exact hm before' group' after' he' hrest'

theorem settled_pass (h : ∀ msg ∈ messages, Settled pushed msg) (hm : Mergeable messages) :
    ∀ msg ∈ (microCompact messages).1, Settled pushed msg := by
  by_cases hlen : 3 ≤ messages.length
  · rw [microCompact_fst hlen]
    intro msg hmsg
    obtain ⟨group, hg, rfl⟩ := List.mem_map.mp hmsg
    obtain ⟨before, after, he⟩ := List.append_of_mem hg
    by_cases hrest : group.rest = []
    · have hmem : group.first ∈ beforeCollapse messages := by
        rw [← ungroup_groups (beforeCollapse messages), he]
        simp [ungroup, Group.messages]
      rw [Group.merged, hrest]
      exact settled_of_mem h _ hmem
    · obtain ⟨text, hc, hl, -⟩ := merged_text h he hrest hm
      have hnone : blocksOf group.merged = [] := by simp [blocksOf, hc]
      refine ⟨fun t ht => ?_, fun _ _ _ hb => ?_, fun _ => ⟨text, hc⟩, fun _ _ _ hb => ?_⟩
      · simp only [cuttables, hc, List.mem_singleton] at ht
        exact ht ▸ (cut_cut_iff text).mpr hl
      · rw [hnone] at hb
        cases hb
      · rw [hnone] at hb
        cases hb
  · rw [microCompact, if_pos (Nat.not_le.mp hlen)]
    exact h

/-- The group of a message after the pass, and where it stood before the third one. -/
theorem exists_group {k : ℕ} {msg : Message}
    (hk : ((groups (beforeCollapse messages)).map Group.merged)[k]? = some msg) :
    ∃ before group after, groups (beforeCollapse messages) = before ++ group :: after ∧ before.length = k ∧
      msg = group.merged ∧
      (group.rest = [] → msg = group.first ∧
        beforeCollapse messages = ungroup before ++ msg :: ungroup after) := by
  rw [List.getElem?_map] at hk
  obtain ⟨group, hg, rfl⟩ := Option.map_eq_some_iff.mp hk
  obtain ⟨hlt, hget⟩ := List.getElem?_eq_some_iff.mp hg
  have he : groups (beforeCollapse messages) = (groups (beforeCollapse messages)).take k ++
      group :: (groups (beforeCollapse messages)).drop (k + 1) := by
    rw [← hget, ← List.drop_eq_getElem_cons hlt, List.take_append_drop]
  refine ⟨_, group, _, he, by rw [List.length_take]; omega, rfl, fun hrest => ?_⟩
  have hfirst : group.merged = group.first := by rw [Group.merged, hrest]; rfl
  refine ⟨hfirst, ?_⟩
  conv_lhs => rw [← ungroup_groups (beforeCollapse messages), he]
  rw [hfirst]
  simp [ungroup, Group.messages, hrest]

theorem still_pass (h : ∀ msg ∈ messages, Settled pushed msg) (hm : Mergeable messages) {k : ℕ} {msg : Message}
    (hk : ((groups (beforeCollapse messages)).map Group.merged)[k]? = some msg)
    (hold : k < ((groups (beforeCollapse messages)).map Group.merged).length - microCompactProtectedRecent) :
    Still msg := by
  obtain ⟨before, group, after, he, rfl, rfl, halone⟩ := exists_group hk
  have hafter : microCompactProtectedRecent ≤ after.length := by
    rw [List.length_map, he, List.length_append, List.length_cons] at hold
    omega
  by_cases hrest : group.rest = []
  · obtain ⟨-, hw⟩ := halone hrest
    have hat : (beforeCollapse messages)[(ungroup before).length]? = some group.merged := by
      rw [hw, List.getElem?_append_right le_rfl, Nat.sub_self]
      rfl
    have hlen := length_le_ungroup after
    have hall := length_beforeCollapse messages
    rw [hw, List.length_append, List.length_cons] at hall
    exact (settled_beforeCollapse h _ _ hat).2 (by omega)
  · obtain ⟨text, hc, -, hsteady⟩ := merged_text h he hrest hm
    intro t ht
    simp only [cuttables, hc, List.mem_singleton] at ht
    exact ht ▸ cut_eq_self_iff.mpr (hsteady hafter)

private theorem count_after (before : List Message) (msg : Message) (after : List Message) :
    (((before ++ msg :: after).take ((before ++ msg :: after).length - microCompactProtectedRecent)).drop
      (before.length + 1)).countP (·.role = .assistant) = assistants after := by
  have hsplit : before ++ msg :: after = (before ++ [msg]) ++ after := by simp
  have hlen : before.length + 1 = (before ++ [msg]).length := by simp
  rw [List.drop_take, hsplit, hlen, List.drop_left, assistants]
  congr 2
  rw [List.length_append]
  omega

theorem strip_roles (messages : List Message) :
    (stripResolvedToolPairs messages).1.map (·.role) = messages.map (·.role) := by
  apply List.ext_getElem?
  intro i
  rw [List.getElem?_map, List.getElem?_map]
  cases hm : messages[i]? with
  | none =>
    have hlen := List.getElem?_eq_none_iff.mp hm
    rw [List.getElem?_eq_none (by rwa [length_strip]), Option.map_none]
  | some old =>
    have hlt : i < (stripResolvedToolPairs messages).1.length := by
      rw [length_strip]
      exact (List.getElem?_eq_some_iff.mp hm).1
    have hget := List.getElem?_eq_getElem hlt
    rw [hget, Option.map_some, Option.map_some, (strip_like messages i _ hget old hm).2.1]

private theorem count_roles {a b : List Message} (h : a.map (·.role) = b.map (·.role)) (c d : ℕ) :
    ((a.take c).drop d).countP (·.role = .assistant) = ((b.take c).drop d).countP (·.role = .assistant) := by
  have hcount : ∀ l : List Message, l.countP (·.role = .assistant) = (l.map (·.role)).countP (· = .assistant) :=
    fun l => by rw [List.countP_map]; rfl
  rw [hcount, hcount, List.map_drop, List.map_take, h, ← List.map_take, ← List.map_drop]

/-- Nothing is resolved after a pass. -/
theorem not_resolved_pass (h : ∀ msg ∈ messages, Settled pushed msg) {k : ℕ} {msg : Message}
    (hk : ((groups (beforeCollapse messages)).map Group.merged)[k]? = some msg) :
    ¬ Resolved ((groups (beforeCollapse messages)).map Group.merged)
      (((groups (beforeCollapse messages)).map Group.merged).length - microCompactProtectedRecent) k msg := by
  rintro ⟨htool, hne, hcount⟩
  obtain ⟨before, group, after, he, rfl, rfl, halone⟩ := exists_group hk
  by_cases hrest : group.rest = []
  · obtain ⟨-, hw⟩ := halone hrest
    have hafter : resolvedAfterAssistantTurns ≤ assistants (ungroup after) := by
      have hlen : (before.map Group.merged).length = before.length := List.length_map _
      refine le_trans ?_ (assistants_merged_le after)
      rw [he, List.map_append, List.map_cons, ← hlen, count_after] at hcount
      exact hcount
    have hlen : assistants (ungroup after) ≤ (ungroup after).length - microCompactProtectedRecent :=
      List.countP_le_length.trans (List.length_take_le _ _)
    have hall := congrArg List.length hw
    rw [List.length_append, List.length_cons] at hall
    have hvlen : (truncateLargeBlocks messages).1.length = (beforeCollapse messages).length :=
      (length_strip _).symm
    have hroles : (truncateLargeBlocks messages).1.map (·.role) = (beforeCollapse messages).map (·.role) :=
      (strip_roles _).symm
    have hat : (beforeCollapse messages)[(ungroup before).length]? = some group.merged := by
      rw [hw, List.getElem?_append_right le_rfl, Nat.sub_self]
      rfl
    refine hne (strip_clean (fun old hold => ?_) hat ?_ htool ?_)
    · obtain ⟨i, hi⟩ := List.mem_iff_getElem?.mp hold
      exact (settled_truncate h i old hi).1.small
    · simp only [resolvedAfterAssistantTurns] at hafter
      omega
    · rw [count_roles hroles, hvlen]
      conv_rhs => rw [hw, count_after]
      exact hafter
  · have hsys := groups_system (beforeCollapse messages) group (by rw [he]; simp) hrest _ List.mem_cons_self
    rw [Group.merged_source, of_decide_eq_true hsys] at htool
    cases htool

/-- A pass right after a pass changes nothing. -/
theorem pass_again (h : ∀ msg ∈ messages, Settled pushed msg) (hm : Mergeable messages) :
    (microCompact (microCompact messages).1).1 = (microCompact messages).1 := by
  by_cases hlen : 3 ≤ messages.length
  · have hapart : Apart ((groups (beforeCollapse messages)).map Group.merged) := by
      rw [← collapse_eq]
      exact apart_collapse _
    rw [microCompact_fst hlen]
    by_cases hy : 3 ≤ ((groups (beforeCollapse messages)).map Group.merged).length
    · have htruncate := truncate_eq_self fun k msg hk hold => still_pass h hm hk hold
      have hstrip := strip_eq_self fun k msg hk => not_resolved_pass h hk
      rw [microCompact_fst hy, ← collapse_eq, beforeCollapse, htruncate, hstrip, collapse_of_apart hapart]
    · rw [microCompact, if_pos (Nat.not_le.mp hy)]
  · have hself : (microCompact messages).1 = messages := by rw [microCompact, if_pos (Nat.not_le.mp hlen)]
    rw [hself, hself]

end pass

/-! The conversation as it grows. -/

/-- `truncate_tool_result_blocks`, for one block: the tool loop leaves texts alone. -/
def truncateToolResult : ContentBlock → ContentBlock × ℕ
  | .toolResult id content isError =>
    if isError = some true then (.toolResult id content isError, 0)
    else if microCompactMaxBlockTokens < content.length / charsPerToken then
      (.toolResult id (truncatePreservingEnds content microCompactHeadLines microCompactTailLines) isError, 1)
    else (.toolResult id content isError, 0)
  | .text text => (.text text, 0)
  | .toolUse id name input => (.toolUse id name input, 0)

def truncateToolResultBlocks (blocks : List ContentBlock) : List ContentBlock × ℕ :=
  let done := blocks.map truncateToolResult
  (done.map Prod.fst, (done.map Prod.snd).sum)

def resultId : ContentBlock → Option Bytes
  | .toolResult id _ _ => some id
  | .text _ | .toolUse .. => none

/-- The message of one round of tools. -/
def toolMessage (results : List ContentBlock) : Message where
  role := .user
  content := .blocks results
  source := some (.toolResult ((results.findSome? resultId).getD []))

/-- A conversation, and the messages that came in, with their results as the tools gave them. -/
structure Talk where
  messages : List Message
  pushed : List Message

inductive Move where
  | say (msg : Message)
  | tools (results : List ContentBlock)
  | pass

def Talk.step (talk : Talk) : Move → Talk
  | .say msg => ⟨talk.messages ++ [msg], talk.pushed ++ [msg]⟩
  | .tools results => ⟨talk.messages ++ [toolMessage (truncateToolResultBlocks results).1],
      talk.pushed ++ [toolMessage results]⟩
  | .pass => ⟨(microCompact talk.messages).1, talk.pushed⟩

def talks : Machine Talk Move where
  start := ⟨[], []⟩
  step := Talk.step

/-- A message whose texts last; what the code injects as the system is one plain text. -/
structure Fits (msg : Message) : Prop where
  texts : ∀ text ∈ cuttables msg, Lasting text
  names : ∀ id name input, .toolUse id name input ∈ blocksOf msg → Steady (usedTool name)
  plain : isSystem msg = true → ∃ text, msg.content = .text text
  sizes : ∀ id content isError, .toolResult id content isError ∈ blocksOf msg → content.length < 2 ^ 64

def Move.Allowed (talk : Talk) : Move → Prop
  | .say msg => Fits msg
  | .tools results => Fits (toolMessage results)
  | .pass => Mergeable talk.messages

/-- A result as it came, with a marker that gives the number of its lines left out, or stripped. -/
def Honest (original content : Bytes) : Prop :=
  content = original ∨ Marked original content ∨ ∃ n, content = processed n

section runs
variable {pushed : List Message} {msg : Message}

theorem Told.honest {original content : Bytes} (h : Told original content) : Honest original content := by
  obtain h | ⟨rfl, -⟩ | ⟨n, -, h⟩ := h
  · exact .inl h
  · exact (cut_cases original).imp_right .inl
  · exact .inr (.inr ⟨n, h⟩)

theorem Fits.settled (h : Fits msg) (hin : msg ∈ pushed) : Settled pushed msg where
  texts text ht := (cut_cut_iff text).mpr (h.texts text ht)
  names id name input hb := cut_eq_self_iff.mpr (h.names id name input hb)
  plain := h.plain
  results id content isError hb := ⟨msg, hin, content, hb, h.sizes id content isError hb, .inl rfl⟩

theorem Settled.mono {more : List Message} (h : Settled pushed msg) : Settled (pushed ++ more) msg where
  texts := h.texts
  names := h.names
  plain := h.plain
  results id content isError hb := by
    obtain ⟨origin, hin, hrest⟩ := h.results id content isError hb
    exact ⟨origin, List.mem_append_left _ hin, hrest⟩

private theorem truncateToolResult_fst (b : ContentBlock) :
    (truncateToolResult b).1 = b ∨ (truncateToolResult b).1 = cutBlock b := by
  cases b with
  | text text => exact .inl rfl
  | toolUse id name input => exact .inl rfl
  | toolResult id content isError =>
    rw [truncateToolResult]
    split
    · exact .inl rfl
    · next herr =>
      split
      · next hlong =>
        refine .inr ?_
        rw [cutBlock, if_neg herr, cut, tryTruncateString, if_pos hlong, Option.getD_some]
      · exact .inl rfl

private theorem resultId_truncate (b : ContentBlock) : resultId (truncateToolResult b).1 = resultId b := by
  obtain h | h := truncateToolResult_fst b
  · rw [h]
  · rw [h]
    cases b <;> rfl

/-- The tool loop truncates the blocks of its message. -/
private theorem toolMessage_truncate (results : List ContentBlock) :
    toolMessage (truncateToolResultBlocks results).1 =
      mapBlocks (fun b => (truncateToolResult b).1) (toolMessage results) := by
  have hblocks : (truncateToolResultBlocks results).1 = results.map fun b => (truncateToolResult b).1 := by
    rw [truncateToolResultBlocks, List.map_map]
    rfl
  have hid : (results.map fun b => (truncateToolResult b).1).findSome? resultId = results.findSome? resultId := by
    rw [List.findSome?_map]
    congr 1
    exact funext resultId_truncate
  rw [hblocks, toolMessage, hid]
  rfl

theorem Talk.settled_step {talk : Talk} (act : Move) (h : ∀ msg ∈ talk.messages, Settled talk.pushed msg)
    (hok : act.Allowed talk) : ∀ msg ∈ (talk.step act).messages, Settled (talk.step act).pushed msg := by
  cases act with
  | say new =>
    intro msg hm
    obtain hm | hm := List.mem_append.mp hm
    · exact (h msg hm).mono
    · obtain rfl := List.mem_singleton.mp hm
      exact Fits.settled hok (by simp [Talk.step])
  | tools results =>
    intro msg hm
    obtain hm | hm := List.mem_append.mp hm
    · exact (h msg hm).mono
    · obtain rfl := List.mem_singleton.mp hm
      rw [toolMessage_truncate]
      exact (Fits.settled hok (by simp [Talk.step])).cuts truncateToolResult_fst
  | pass => exact settled_pass h hok

/-- In a conversation whose texts last, a pass right after a pass changes nothing, and each result is as it
came, says how many of its lines are left out, or is stripped. -/
theorem passes_settle (talk : Talk) (h : talks.Runs Move.Allowed talk) :
    (Mergeable talk.messages →
      (microCompact (microCompact talk.messages).1).1 = (microCompact talk.messages).1) ∧
    ∀ msg ∈ talk.messages, ∀ id content isError, .toolResult id content isError ∈ blocksOf msg →
      ∃ came ∈ talk.pushed, ∃ original, .toolResult id original isError ∈ blocksOf came ∧
        Honest original content := by
  have hinv : ∀ msg ∈ talk.messages, Settled talk.pushed msg :=
    h.invariant (I := fun talk => ∀ msg ∈ talk.messages, Settled talk.pushed msg) (by simp [talks])
      fun talk act hs hok => talk.settled_step act hs hok
  refine ⟨pass_again hinv, fun msg hm id content isError hb => ?_⟩
  obtain ⟨came, hin, original, hblock, -, htold⟩ := (hinv msg hm).results id content isError hb
  exact ⟨came, hin, original, hblock, htold.honest⟩

end runs

/-! One tool result and twelve short messages after it. -/

def shortMessage : Message where
  role := .user
  content := .text (ascii "go on")
  source := none

def lone (content : Bytes) : List Message :=
  toolMessage [.toolResult (ascii "t1") content none] :: List.replicate 12 shortMessage

private theorem lone_quiet (content : Bytes) :
    ∀ msg ∈ lone content, msg.role = .user ∧ isSystem msg = false := by
  intro msg hm
  obtain rfl | hm := List.mem_cons.mp hm
  · exact ⟨rfl, rfl⟩
  · obtain rfl := List.eq_of_mem_replicate hm
    exact ⟨rfl, rfl⟩

private theorem apart_of_quiet {messages : List Message} (h : ∀ msg ∈ messages, isSystem msg = false) :
    Apart messages := by
  induction messages with
  | nil => exact .nil
  | cons msg rest ih =>
    obtain ⟨hmsg, hrest⟩ := List.forall_mem_cons.mp h
    cases rest with
    | nil => exact .singleton _
    | cons next rest => exact List.isChain_cons_cons.mpr ⟨by rw [hmsg, Bool.false_and], ih hrest⟩

theorem microCompact_lone (content : Bytes) : (microCompact (lone content)).1 = lone (cut content) := by
  have hshort : (truncateMessage shortMessage).1 = shortMessage := by decide
  have htruncate : (truncateLargeBlocks (lone content)).1 = lone (cut content) := by
    rw [truncate_fst]
    show (truncateMessage (toolMessage [.toolResult (ascii "t1") content none])).1 ::
      (truncateMessage shortMessage).1 :: (truncateMessage shortMessage).1 :: List.replicate 10 shortMessage = _
    rw [hshort, truncateMessage_blocks rfl]
    rfl
  have hstrip : (stripResolvedToolPairs (lone (cut content))).1 = lone (cut content) := by
    refine strip_eq_self fun i msg _ hres => ?_
    have hnone : (((lone (cut content)).take ((lone (cut content)).length - microCompactProtectedRecent)).drop
        (i + 1)).countP (·.role = .assistant) = 0 := by
      refine List.countP_eq_zero.mpr fun other hother => ?_
      rw [(lone_quiet (cut content) other (List.mem_of_mem_take (List.mem_of_mem_drop hother))).1]
      decide
    have hcount := hres.2.2
    rw [hnone] at hcount
    exact absurd hcount (by decide)
  have hcollapse := collapse_of_apart (apart_of_quiet fun msg hm => (lone_quiet (cut content) msg hm).2)
  have hlong : ¬ (lone content).length < 3 := by simp [lone]
  rw [microCompact, if_neg hlong]
  show (collapseConsecutiveSystemMessages (stripResolvedToolPairs (truncateLargeBlocks (lone content)).1).1).1 = _
  rw [htruncate, hstrip, hcollapse]

/-- For these conversations the condition on the text is exact. -/
theorem lone_settles_iff (content : Bytes) :
    (microCompact (microCompact (lone content)).1).1 = (microCompact (lone content)).1 ↔ Lasting content := by
  rw [microCompact_lone, microCompact_lone, ← cut_cut_iff]
  constructor
  · intro h
    have hm := (List.cons.inj h).1
    simp only [toolMessage, Message.mk.injEq, MessageContent.blocks.injEq, List.cons.injEq,
      ContentBlock.toolResult.injEq, true_and, and_true] at hm
    exact hm.1
  · intro h
    rw [h]

def sampleRow (width : ℕ) : Bytes := List.replicate width 120

def sampleRows (width n : ℕ) : Bytes := joinLines (List.replicate n (sampleRow width))

private theorem newline_not_mem_row (width : ℕ) : newline ∉ sampleRow width := fun h =>
  absurd (List.eq_of_mem_replicate h) (by decide)

private theorem getLast_row (width : ℕ) : (sampleRow width).getLast? ≠ some 13 := fun h =>
  absurd (List.eq_of_mem_replicate (List.mem_of_getLast? h)) (by decide)

private theorem lineTexts_rows (width n : ℕ) :
    lineTexts (sampleRows (width + 1) (n + 1)) = List.replicate (n + 1) (sampleRow (width + 1)) := by
  have hne : sampleRow (width + 1) ≠ [] := List.cons_ne_nil _ _
  have hrows : ∀ l ∈ List.replicate n (sampleRow (width + 1)), l = sampleRow (width + 1) :=
    fun l hl => List.eq_of_mem_replicate hl
  have hsame : (List.replicate n (sampleRow (width + 1))).map Text.dropReturn =
      List.replicate n (sampleRow (width + 1)) :=
    Text.map_dropReturn_eq.mpr fun l hl => hrows l hl ▸ getLast_row (width + 1)
  rw [sampleRows, List.replicate_succ', Text.lineTexts_joinLines (fun l hl => hrows l hl ▸ newline_not_mem_row _)
    (newline_not_mem_row _), if_neg hne, hsame]

private theorem length_rows (width n : ℕ) : (sampleRows width (n + 1)).length + 1 = (n + 1) * (width + 1) := by
  rw [sampleRows, Text.length_joinLines (by simp)]
  simp [sampleRow]
  ring

/-- The lines of so many rows after a truncation that leaves `n` out. -/
private def markedRows (width n : ℕ) : List Bytes :=
  List.replicate microCompactHeadLines (sampleRow width) ++ [[], truncationMarker n, []] ++
    List.replicate microCompactTailLines (sampleRow width)

private theorem pieces_rows (width n : ℕ) :
    pieces (List.replicate (30 + n) (sampleRow width)) = markedRows width n := by
  have hsplit : List.replicate (30 + n) (sampleRow width) =
      List.replicate microCompactHeadLines (sampleRow width) ++ List.replicate n (sampleRow width) ++
        List.replicate microCompactTailLines (sampleRow width) := by
    rw [← List.replicate_add, ← List.replicate_add]
    congr 1
    simp only [microCompactHeadLines, microCompactTailLines]
    omega
  rw [hsplit, pieces_append List.length_replicate List.length_replicate, List.length_replicate, markedRows]

/-- The marker and the empty lines around it are lines that the next truncation leaves out. -/
private theorem pieces_marked (width n : ℕ) : pieces (markedRows width n) = markedRows width 3 :=
  pieces_append List.length_replicate List.length_replicate

private theorem marker_marked (width n : ℕ) : (markedRows width n)[21]? = some (truncationMarker n) := rfl

private theorem lineTexts_marked (width n : ℕ) :
    lineTexts (joinLines (markedRows (width + 1) n)) = markedRows (width + 1) n := by
  have hrow : ∀ k, ∀ l ∈ List.replicate k (sampleRow (width + 1)), newline ∉ l ∧ l.getLast? ≠ some 13 :=
    fun k l hl => List.eq_of_mem_replicate hl ▸ ⟨newline_not_mem_row _, getLast_row _⟩
  have hmark : ∀ l ∈ [[], truncationMarker n, []], newline ∉ l ∧ l.getLast? ≠ some 13 := by
    simp [newline_not_mem_marker, getLast_marker]
  have hall : ∀ l ∈ List.replicate microCompactHeadLines (sampleRow (width + 1)) ++ [[], truncationMarker n, []] ++
      List.replicate 9 (sampleRow (width + 1)), newline ∉ l ∧ l.getLast? ≠ some 13 := by
    simp only [List.mem_append]
    rintro l ((hl | hl) | hl)
    · exact hrow _ l hl
    · exact hmark l hl
    · exact hrow _ l hl
  have hne : sampleRow (width + 1) ≠ [] := List.cons_ne_nil _ _
  have htail : List.replicate microCompactTailLines (sampleRow (width + 1)) =
      List.replicate 9 (sampleRow (width + 1)) ++ [sampleRow (width + 1)] := List.replicate_succ'
  rw [markedRows, htail, ← List.append_assoc, Text.lineTexts_joinLines (fun l hl => (hall l hl).1)
    (newline_not_mem_row _), if_neg hne, Text.map_dropReturn_eq.mpr fun l hl => (hall l hl).2]

private theorem sum_marked (width n : ℕ) :
    ((markedRows width n).map List.length).sum = 30 * width + (truncationMarker n).length := by
  simp only [markedRows, List.map_append, List.map_cons, List.map_nil, List.map_replicate, List.sum_append,
    List.sum_replicate, List.sum_cons, List.sum_nil, List.length_nil, sampleRow, List.length_replicate,
    microCompactHeadLines, microCompactTailLines, smul_eq_mul]
  omega

private theorem cut_rows (width n : ℕ) (hlong : 8005 ≤ (30 + n) * (width + 2)) (hn : 0 < n) :
    cut (sampleRows (width + 1) (30 + n)) = joinLines (markedRows (width + 1) n) := by
  obtain ⟨n, rfl⟩ : ∃ m, n = m + 1 := ⟨n - 1, by omega⟩
  have hlines := lineTexts_rows width (30 + n)
  have hsize : (sampleRows (width + 1) (30 + (n + 1))).length + 1 = (30 + (n + 1)) * (width + 2) :=
    length_rows (width + 1) (30 + n)
  have hw : ¬ Whole (sampleRows (width + 1) (30 + (n + 1))) := by
    rintro (h | h)
    · simp only [charsPerToken, microCompactMaxBlockTokens] at h
      omega
    · rw [← Nat.add_assoc, hlines, List.length_replicate] at h
      simp only [microCompactHeadLines, microCompactTailLines] at h
      omega
  rw [cut_of_not_whole hw, ← Nat.add_assoc, hlines, Nat.add_assoc, pieces_rows]

private theorem cut_marked (width n : ℕ) (hwidth : 266 ≤ width) :
    cut (joinLines (markedRows (width + 1) n)) = joinLines (markedRows (width + 1) 3) := by
  have hlen : (markedRows (width + 1) n).length = 33 := by
    simp [markedRows, microCompactHeadLines, microCompactTailLines]
  have hne : markedRows (width + 1) n ≠ [] := by simp [markedRows]
  have hsize := Text.length_joinLines hne
  rw [sum_marked, hlen] at hsize
  have hw : ¬ Whole (joinLines (markedRows (width + 1) n)) := by
    rintro (h | h)
    · simp only [charsPerToken, microCompactMaxBlockTokens] at h
      omega
    · rw [lineTexts_marked, hlen] at h
      exact absurd h (by decide)
  rw [cut_of_not_whole hw, lineTexts_marked, pieces_marked]

def loneTalk (content : Bytes) : Talk := ⟨lone content, lone content⟩

private theorem loneTalk_runs {ok : Talk → Move → Prop} {content : Bytes}
    (hfirst : ok talks.start (.say (toolMessage [.toolResult (ascii "t1") content none])))
    (hshort : ∀ talk, ok talk (.say shortMessage)) : talks.Runs ok (loneTalk content) := by
  let first := toolMessage [.toolResult (ascii "t1") content none]
  have hgrow : ∀ n, talks.Runs ok
      ⟨first :: List.replicate n shortMessage, first :: List.replicate n shortMessage⟩ := by
    intro n
    induction n with
    | zero => exact .step _ .start hfirst
    | succ n ih =>
      rw [List.replicate_succ']
      exact .step (.say shortMessage) ih (hshort _)
  exact hgrow 12

/-- A result of which the first pass leaves six lines out: the second leaves out the marker that says so. -/
def longResult : Bytes := sampleRows 300 36

theorem second_pass_recounts : talks.Runs (fun _ _ => True) (loneTalk longResult) ∧
    (microCompact (lone longResult)).1 = lone (cut longResult) ∧
    (microCompact (microCompact (lone longResult)).1).1 = lone (cut (cut longResult)) ∧
    lone (cut (cut longResult)) ≠ lone (cut longResult) ∧ (lineTexts longResult).length = 36 ∧
    (lineTexts (cut longResult))[21]? = some (truncationMarker 6) ∧
    (lineTexts (cut (cut longResult)))[21]? = some (truncationMarker 3) := by
  have hfirst : cut longResult = joinLines (markedRows 300 6) :=
    cut_rows 299 6 (by decide) (by decide)
  have hsecond : cut (cut longResult) = joinLines (markedRows 300 3) := by
    rw [hfirst]
    exact cut_marked 299 6 (by decide)
  have hsix : (lineTexts (cut longResult))[21]? = some (truncationMarker 6) := by
    rw [hfirst, lineTexts_marked 299, marker_marked]
  have hthree : (lineTexts (cut (cut longResult)))[21]? = some (truncationMarker 3) := by
    rw [hsecond, lineTexts_marked 299, marker_marked]
  refine ⟨loneTalk_runs trivial fun _ => trivial, microCompact_lone _, ?_, fun h => ?_, ?_, hsix, hthree⟩
  · rw [microCompact_lone, microCompact_lone]
  · rw [← microCompact_lone, ← microCompact_lone, lone_settles_iff, ← cut_cut_iff] at h
    rw [h, hsix] at hthree
    exact absurd (truncationMarker_injective (Option.some.inj hthree)) (by decide)
  · rw [longResult, lineTexts_rows 299 35, List.length_replicate]

/-- A result of a hundred rows, which is within the threshold once it is truncated. -/
def wideResult : Bytes := sampleRows 99 100

private theorem wide_lasting : Lasting wideResult := by
  have hlines : lineTexts wideResult = List.replicate (30 + 70) (sampleRow 99) := lineTexts_rows 98 99
  refine .inr (.inl ?_)
  rw [hlines, pieces_rows, sum_marked]
  decide

private theorem wide_fits : Fits (toolMessage [.toolResult (ascii "t1") wideResult none]) where
  texts text ht := by
    obtain rfl := List.mem_singleton.mp ht
    exact wide_lasting
  names id name input hb := nomatch List.mem_singleton.mp hb
  plain h := absurd h (by decide)
  sizes id content isError hb := by
    have hsize : wideResult.length + 1 = 100 * 100 := length_rows 99 99
    obtain ⟨-, rfl, -⟩ := ContentBlock.toolResult.inj (List.mem_singleton.mp hb)
    omega

private theorem short_fits : Fits shortMessage where
  texts text ht := by
    obtain rfl := List.mem_singleton.mp ht
    exact .inl (.inl (by decide))
  names id name input hb := nomatch hb
  plain h := absurd h (by decide)
  sizes id content isError hb := nomatch hb

private theorem lone_mergeable (content : Bytes) : Mergeable (lone content) := by
  intro before group after he hrest
  have hsys := groups_system (lone content) group (by rw [he]; simp) hrest _ List.mem_cons_self
  have hmem : group.first ∈ lone content := by
    rw [← ungroup_groups (lone content), he]
    simp [ungroup, Group.messages]
  exact absurd hsys (by rw [(lone_quiet content _ hmem).2]; decide)

theorem passes_settle_wide : talks.Runs Move.Allowed (talks.step (loneTalk wideResult) .pass) ∧
    (microCompact (microCompact (lone (cut wideResult))).1).1 = (microCompact (lone (cut wideResult))).1 ∧
    cut wideResult ≠ wideResult ∧ Honest wideResult (cut wideResult) := by
  have hrun : talks.Runs Move.Allowed (talks.step (loneTalk wideResult) .pass) :=
    .step .pass (loneTalk_runs wide_fits fun _ => short_fits) (lone_mergeable _)
  have hstate : talks.step (loneTalk wideResult) .pass = ⟨lone (cut wideResult), lone wideResult⟩ := by
    show (⟨(microCompact (lone wideResult)).1, _⟩ : Talk) = _
    rw [microCompact_lone]
    rfl
  obtain ⟨hagain, hhonest⟩ := passes_settle (talks.step (loneTalk wideResult) .pass) hrun
  rw [hstate] at hagain hhonest
  refine ⟨hrun, hagain (lone_mergeable _), fun he => ?_, ?_⟩
  · have hfirst : cut wideResult = joinLines (markedRows 99 70) :=
      cut_rows 98 70 (by decide) (by decide)
    have hlines := congrArg (fun text => (lineTexts text).length) he
    rw [hfirst, wideResult, lineTexts_marked 98, lineTexts_rows 98 99, List.length_replicate] at hlines
    exact absurd hlines (by simp [markedRows, microCompactHeadLines, microCompactTailLines])
  · obtain ⟨came, hin, original, hblock, hh⟩ := hhonest _ List.mem_cons_self (ascii "t1") (cut wideResult) none
      List.mem_cons_self
    obtain rfl | hin := List.mem_cons.mp hin
    · obtain ⟨-, rfl, -⟩ := ContentBlock.toolResult.inj (List.mem_singleton.mp hblock)
      exact hh
    · obtain rfl := List.eq_of_mem_replicate hin
      simp [blocksOf, shortMessage] at hblock

end PulseNull.Context
