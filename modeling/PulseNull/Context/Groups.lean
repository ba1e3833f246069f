import PulseNull.Context.MicroCompact

/-! The third pass by groups: adjacent system messages are put together, every other message stays
alone. -/
namespace PulseNull.Context
open Session (Role ContentBlock MessageContent MessageSource Message)
open Text (ascii newline)

def isSystem (msg : Message) : Bool := msg.source = some .system

/-- Messages that become one. -/
structure Group where
  first : Message
  rest : List Message

def Group.messages (group : Group) : List Message := group.first :: group.rest

def Group.merged (group : Group) : Message := group.rest.foldl absorb group.first

/-- A system message joins the group after it, if that is one of system messages. -/
def consGroup (msg : Message) : List Group → List Group
  | [] => [⟨msg, []⟩]
  | group :: more =>
    if isSystem msg && isSystem group.first then ⟨msg, group.messages⟩ :: more else ⟨msg, []⟩ :: group :: more

def groups : List Message → List Group
  | [] => []
  | msg :: rest => consGroup msg (groups rest)

def ungroup (gs : List Group) : List Message := gs.flatMap Group.messages

/-- Texts with an empty line between them. -/
def together (texts : List Bytes) : Bytes := (ascii "\n\n").intercalate texts

@[simp] theorem absorb_source (msg next : Message) : (absorb msg next).source = msg.source := by
  unfold absorb
  split <;> rfl

@[simp] theorem absorb_role (msg next : Message) : (absorb msg next).role = msg.role := by
  unfold absorb
  split <;> rfl

private theorem foldl_absorb (msg : Message) (rest : List Message) :
    (rest.foldl absorb msg).source = msg.source ∧ (rest.foldl absorb msg).role = msg.role := by
  induction rest generalizing msg with
  | nil => exact ⟨rfl, rfl⟩
  | cons next rest ih =>
    obtain ⟨hs, hr⟩ := ih (absorb msg next)
    exact ⟨hs.trans (absorb_source msg next), hr.trans (absorb_role msg next)⟩

@[simp] theorem Group.merged_source (group : Group) : group.merged.source = group.first.source :=
  (foldl_absorb ..).1

@[simp] theorem Group.merged_role (group : Group) : group.merged.role = group.first.role := (foldl_absorb ..).2

private theorem foldl_absorb_content {msg : Message} {text : Bytes} (h : msg.content = .text text)
    (rest : List Message) :
    (rest.foldl absorb msg).content = .text (together (text :: rest.map extractMessageText)) := by
  induction rest generalizing msg text with
  | nil => exact h.trans (by rw [List.map_nil, together, List.intercalate_singleton])
  | cons next rest ih =>
    have habsorb : (absorb msg next).content = .text (text ++ ascii "\n\n" ++ extractMessageText next) := by
      unfold absorb
      rw [h]
    rw [List.foldl_cons, ih habsorb, List.map_cons]
    cases rest with
    | nil => simp [together, List.intercalate_cons_cons]
    | cons after rest => simp [together, List.intercalate_cons_cons, List.append_assoc]

/-- Plain texts are merged into one. -/
theorem Group.merged_content {group : Group} {text : Bytes} (h : group.first.content = .text text) :
    group.merged.content = .text (together (group.messages.map extractMessageText)) := by
  have hfirst : extractMessageText group.first = text := by rw [extractMessageText, h]
  rw [Group.messages, List.map_cons, hfirst]
  exact foldl_absorb_content h group.rest

section groups
variable {gs : List Group}

theorem ungroup_consGroup (msg : Message) (gs : List Group) : ungroup (consGroup msg gs) = msg :: ungroup gs := by
  cases gs with
  | nil => rfl
  | cons group more =>
    rw [consGroup]
    split <;> rfl

@[simp] theorem ungroup_groups (messages : List Message) : ungroup (groups messages) = messages := by
  induction messages with
  | nil => rfl
  | cons msg rest ih => rw [groups, ungroup_consGroup, ih]

theorem length_le_ungroup (gs : List Group) : gs.length ≤ (ungroup gs).length := by
  induction gs with
  | nil => exact le_rfl
  | cons group more ih =>
    rw [ungroup, List.flatMap_cons, List.length_append, ← ungroup, Group.messages, List.length_cons, List.length_cons]
    omega

theorem consGroup_first (msg : Message) (gs : List Group) :
    ∃ group more, consGroup msg gs = group :: more ∧ group.first = msg := by
  cases gs with
  | nil => exact ⟨_, _, rfl, rfl⟩
  | cons group more =>
    rw [consGroup]
    split
    · exact ⟨_, _, rfl, rfl⟩
    · exact ⟨_, _, rfl, rfl⟩

/-- A group of several messages is one of system messages. -/
theorem groups_system (messages : List Message) :
    ∀ group ∈ groups messages, group.rest ≠ [] → ∀ msg ∈ group.messages, isSystem msg = true := by
  induction messages with
  | nil => simp [groups]
  | cons msg rest ih =>
    rw [groups]
    cases hg : groups rest with
    | nil => simp [consGroup]
    | cons group more =>
      rw [hg] at ih
      obtain ⟨hgroup, hmore⟩ := List.forall_mem_cons.mp ih
      rw [consGroup]
      split
      · next hsys =>
        obtain ⟨hm, hfirst⟩ := Bool.and_eq_true_iff.mp hsys
        refine List.forall_mem_cons.mpr ⟨fun _ => List.forall_mem_cons.mpr ⟨hm, ?_⟩, hmore⟩
        by_cases halone : group.rest = []
        · rw [Group.messages, halone]
          exact List.forall_mem_singleton.mpr hfirst
        · exact hgroup halone
      · exact List.forall_mem_cons.mpr ⟨fun h => absurd rfl h, ih⟩

private theorem collapseFrom_eq (msg : Message) (rest : List Message) :
    (collapseFrom msg rest).1 = (consGroup msg (groups rest)).map Group.merged := by
  induction rest generalizing msg with
  | nil => rfl
  | cons next rest ih =>
    have hsys : (msg.source = some .system && next.source = some .system) = (isSystem msg && isSystem next) := rfl
    rw [collapseFrom, groups, hsys]
    split
    · next hboth =>
      obtain ⟨hm, hn⟩ := Bool.and_eq_true_iff.mp hboth
      have ha : isSystem (absorb msg next) = true := by rw [isSystem, absorb_source]; exact hm
      rw [ih]
      cases groups rest with
      | nil => simp [consGroup, hm, hn, Group.merged, Group.messages]
      | cons group more =>
        by_cases hg : isSystem group.first = true
        · simp [consGroup, hm, hn, ha, hg, Group.merged, Group.messages]
        · simp [consGroup, hm, hn, ha, hg, Group.merged, Group.messages]
    · next hboth =>
      obtain ⟨group, more, hcons, hfirst⟩ := consGroup_first next (groups rest)
      show msg :: (collapseFrom next rest).1 = _
      rw [ih, hcons, consGroup, hfirst, if_neg hboth]
      rfl

/-- The third pass merges each group. -/
theorem collapse_eq (messages : List Message) :
    (collapseConsecutiveSystemMessages messages).1 = (groups messages).map Group.merged := by
  cases messages with
  | nil => rfl
  | cons msg rest => exact collapseFrom_eq msg rest

/-- No two messages that follow each other are system messages. -/
def Apart : List Message → Prop := List.IsChain fun msg next => (isSystem msg && isSystem next) = false

private theorem isSystem_merged (group : Group) : isSystem group.merged = isSystem group.first := by
  rw [isSystem, isSystem, Group.merged_source]

theorem apart_collapse (messages : List Message) : Apart (collapseConsecutiveSystemMessages messages).1 := by
  rw [collapse_eq]
  induction messages with
  | nil => exact .nil
  | cons msg rest ih =>
    rw [groups]
    cases hg : groups rest with
    | nil => exact .singleton _
    | cons group more =>
      rw [hg, List.map_cons] at ih
      rw [consGroup]
      split
      · next hsys =>
        obtain ⟨hm, hfirst⟩ := Bool.and_eq_true_iff.mp hsys
        cases more with
        | nil => exact .singleton _
        | cons next more =>
          obtain ⟨hnext, hrest⟩ := List.isChain_cons_cons.mp ih
          refine List.isChain_cons_cons.mpr ⟨?_, hrest⟩
          rw [isSystem_merged] at hnext ⊢
          rwa [hfirst, ← hm] at hnext
      · next hsys =>
        refine List.isChain_cons_cons.mpr ⟨?_, ih⟩
        rw [isSystem_merged, isSystem_merged]
        exact Bool.eq_false_iff.mpr hsys

private theorem groups_of_apart {messages : List Message} (h : Apart messages) :
    groups messages = messages.map (⟨·, []⟩) := by
  induction messages with
  | nil => rfl
  | cons msg rest ih =>
    cases rest with
    | nil => rfl
    | cons next rest =>
      obtain ⟨hnext, hrest⟩ := List.isChain_cons_cons.mp h
      rw [groups, ih hrest, List.map_cons, consGroup, if_neg (by simp only [hnext]; exact Bool.false_ne_true)]
      rfl

theorem collapse_of_apart {messages : List Message} (h : Apart messages) :
    (collapseConsecutiveSystemMessages messages).1 = messages := by
  rw [collapse_eq, groups_of_apart h, List.map_map]
  exact List.map_id messages

/-- The assistant messages outside the recent window. -/
def assistants (messages : List Message) : ℕ :=
  (messages.take (messages.length - microCompactProtectedRecent)).countP (·.role = .assistant)

theorem assistants_cons (msg : Message) (rest : List Message) : assistants (msg :: rest) =
    if microCompactProtectedRecent ≤ rest.length
    then (if msg.role = .assistant then 1 else 0) + assistants rest else 0 := by
  unfold assistants
  split
  · next h =>
    rw [List.length_cons, Nat.sub_add_comm h, List.take_succ_cons, List.countP_cons, Nat.add_comm]
    simp
  · next h =>
    have h0 : (msg :: rest).length - microCompactProtectedRecent = 0 := by
      rw [List.length_cons]
      omega
    rw [h0, List.take_zero, List.countP_nil]

theorem assistants_append_le (before after : List Message) : assistants after ≤ assistants (before ++ after) := by
  induction before with
  | nil => exact le_rfl
  | cons msg rest ih =>
    rw [List.cons_append, assistants_cons]
    split
    · omega
    · next h =>
      have h0 : assistants after = 0 := by
        rw [List.length_append] at h
        have hz : after.length - microCompactProtectedRecent = 0 := by omega
        rw [assistants, hz, List.take_zero, List.countP_nil]
      omega

/-- Merging brings no assistant message out of the recent window. -/
theorem assistants_merged_le (gs : List Group) : assistants (gs.map Group.merged) ≤ assistants (ungroup gs) := by
  induction gs with
  | nil => exact le_rfl
  | cons group more ih =>
    have hu : ungroup (group :: more) = group.first :: (group.rest ++ ungroup more) := rfl
    have hlen := length_le_ungroup more
    have happ := assistants_append_le group.rest (ungroup more)
    rw [hu, List.map_cons, assistants_cons, assistants_cons, List.length_map, List.length_append, Group.merged_role]
    by_cases h : microCompactProtectedRecent ≤ more.length
    · have hw : microCompactProtectedRecent ≤ group.rest.length + (ungroup more).length := by omega
      rw [if_pos h, if_pos hw]
      omega
    · rw [if_neg h]
      exact Nat.zero_le _

end groups
end PulseNull.Context
