import PulseNull.Probe.OwnerSections
import PulseNull.Text.Trim

/-! The texts the owner's words survive in: a message without the composer's own marker, and an
archive whose turns hold no line of the other side's delimiters. -/
namespace PulseNull.Probe
open Text (ascii newline trim Complete linesText linesText_cons linesText_append IsInk)
open Session (Role ContentBlock MessageContent Message ArchiveMeta)
open scoped List

/-! The last marker of a composed turn. -/

private theorem splitLast_skip {d : UInt8} {part l : Bytes} (hl : d ∉ l) (y : Bytes) :
    splitLast (d :: part) (l ++ y) = (splitLast (d :: part) y).map fun p => (l ++ p.1, p.2) := by
  induction l with
  | nil => simp
  | cons c l ih =>
    have hc : ¬(d :: part).isPrefixOf (c :: (l ++ y)) = true := by
      rw [List.isPrefixOf_iff_prefix, List.cons_prefix_cons]
      exact fun h => hl (by simp [h.1])
    rw [List.cons_append, splitLast, ih fun h => hl (by simp [h])]
    cases splitLast (d :: part) y with
    | none => simp [hc]
    | some p => rfl

private theorem splitLast_before {part y a b : Bytes} (h : splitLast part y = some (a, b)) (l : Bytes) :
    splitLast part (l ++ y) = some (l ++ a, b) := by
  induction l with
  | nil => exact h
  | cons c l ih => rw [List.cons_append, splitLast, ih]; rfl

private theorem splitLast_some {part y a b : Bytes} (h : splitLast part y = some (a, b)) :
    y = a ++ (part ++ b) := by
  induction y generalizing a with
  | nil =>
    rw [splitLast] at h
    split_ifs at h with hp
    cases h
    simp [hp]
  | cons c y ih =>
    rw [splitLast] at h
    cases hy : splitLast part y with
    | some p =>
      obtain ⟨a', b'⟩ := p
      rw [hy] at h
      cases h
      rw [ih hy, List.cons_append]
    | none =>
      rw [hy] at h
      simp only at h
      split_ifs at h with hp
      cases h
      obtain ⟨z, hz⟩ := List.isPrefixOf_iff_prefix.mp hp
      rw [List.nil_append, ← hz, List.drop_left]

private theorem splitLast_none {part y : Bytes} (h : splitLast part y = none) : ¬part <:+: y := by
  rintro ⟨a, b, rfl⟩
  have hpart : splitLast part (part ++ b) ≠ none := by
    cases part with
    | nil =>
      cases b with
      | nil => exact fun he => nomatch he
      | cons c b =>
        rw [List.nil_append, splitLast]
        cases splitLast [] b <;> simp
    | cons d part =>
      rw [List.cons_append, splitLast]
      cases splitLast (d :: part) (part ++ b) with
      | some p => exact fun he => nomatch he
      | none =>
        have hp : (d :: part).isPrefixOf (d :: (part ++ b)) = true :=
          List.isPrefixOf_iff_prefix.mpr ⟨b, rfl⟩
        simp [hp]
  obtain ⟨p, hp⟩ := Option.ne_none_iff_exists'.mp hpart
  rw [List.append_assoc, splitLast_before hp] at h
  exact nomatch h

/-- No occurrence of the marker starts inside the marker, so the last one is in what follows, or is
the marker itself. -/
private theorem splitLast_marker (before m : Bytes) :
    splitLast ownerMarker (before ++ (ownerMarker ++ m)) = match splitLast ownerMarker m with
      | some (a, b) => some (before ++ (ownerMarker ++ a), b)
      | none => some (before, m) := by
  have htail : ownerMarker = 85 :: ascii "ser message: " := rfl
  have hskip := @splitLast_skip 85 (ascii "ser message: ") _
    (by decide : (85 : UInt8) ∉ ascii "ser message: ") m
  cases h : splitLast ownerMarker m with
  | some p => exact splitLast_before (splitLast_before h ownerMarker) before
  | none =>
    rw [← htail, h, Option.map_none] at hskip
    have hm : splitLast ownerMarker (ownerMarker ++ m) = some ([], m) := by
      have hp : ownerMarker.isPrefixOf (85 :: (ascii "ser message: " ++ m)) = true :=
        List.isPrefixOf_iff_prefix.mpr ⟨m, rfl⟩
      rw [show ownerMarker ++ m = 85 :: (ascii "ser message: " ++ m) from rfl, splitLast, hskip]
      simp only
      rw [if_pos hp]
      rfl
    have hbefore := splitLast_before hm before
    rwa [List.append_nil] at hbefore

private theorem trim_count {c : UInt8} (hc : IsInk c) (text : Bytes) :
    (trim text).count c = text.count c := by
  obtain ⟨cs, hcs, hstart, _⟩ := Text.trimStart_spec text
  obtain ⟨ws, hws, hend⟩ := Text.trimEnd_append (Text.trimStart text)
  have hfront : cs.flatten.count c = 0 := List.count_eq_zero_of_not_mem (hc.not_mem hcs)
  have hback : ws.count c = 0 :=
    List.count_eq_zero_of_not_mem fun hm => hc.2 (Text.blank_ascii hws hm hc.1)
  calc (trim text).count c = (trim text ++ ws).count c := by simp [hback]
    _ = (Text.trimStart text).count c := by rw [trim, ← hend]
    _ = (cs.flatten ++ Text.trimStart text).count c := by simp [hfront]
    _ = text.count c := by rw [← hstart]

/-- A composed turn gives the message back unless the message holds the marker. -/
theorem ownerWords_compose (warning : Bool) (channelContext : Option Bytes) (m : Bytes) :
    ownerWords (composeUserMessage warning channelContext m) = trim m ↔ ¬ownerMarker <:+: m := by
  have hcompose : composeUserMessage warning channelContext m =
      ((if warning then injectionWarning ++ [newline] else []) ++ channelContext.elim [] (fun context =>
        ascii "\n[Recent channel activity]\n" ++ context ++ ascii "\n[End channel activity]\n") ++
        [newline]) ++ (ownerMarker ++ m) := by
    cases channelContext <;> simp [composeUserMessage]
  rw [hcompose, ownerWords, splitLast_marker]
  cases h : splitLast ownerMarker m with
  | none => exact ⟨fun _ => splitLast_none h, fun _ => rfl⟩
  | some p =>
    obtain ⟨a, b⟩ := p
    have hm := splitLast_some h
    refine ⟨fun heq => ?_, fun hnot => absurd ⟨a, b, by simp [hm]⟩ hnot⟩
    -- a marker in the message is dropped with what precedes it, its `U` with it
    have hcount := congrArg (List.count 85) heq
    have hink : IsInk 85 := ⟨by decide, by decide⟩
    have hmarker : ownerMarker.count 85 = 1 := by decide
    simp only [trim_count hink, hm, List.count_append, hmarker] at hcount
    omega

/-! The lines of an archive. -/

/-- The lines of a text that a newline is put after. -/
def turnLines (text : Bytes) : List Bytes := (Text.lines (text ++ [newline])).map Text.Line.bytes

theorem linesText_turnLines (text : Bytes) : linesText (turnLines text) = text ++ [newline] :=
  (Text.complete_snoc text).linesText_eq

theorem turnLines_line (text : Bytes) : ∀ l ∈ turnLines text, newline ∉ l := by
  intro l hl
  obtain ⟨line, hline, rfl⟩ := List.mem_map.mp hl
  exact Text.lines_no_newline _ line hline

/-- A fenced text under its heading. -/
def fencedLines (heading fence text : Bytes) : List Bytes :=
  turnLines heading ++ fence :: (turnLines text ++ [ascii "```", []])

def blockLines (pretty : Bytes → Bytes) : ContentBlock → List Bytes
  | .text text => turnLines text
  | .toolUse id name input =>
    fencedLines (ascii "**Tool: " ++ name ++ ascii "** (id: " ++ id ++ ascii ")") (ascii "```json")
      (pretty input)
  | .toolResult toolUseId content isError =>
    fencedLines (ascii "**Tool Result**" ++ (if isError = some true then ascii " [ERROR]" else []) ++
      ascii " (for: " ++ toolUseId ++ ascii ")") (ascii "```") (toolDisplay content)

/-- The lines of a turn. -/
def bodyLines (pretty : Bytes → Bytes) : MessageContent → List Bytes
  | .text text => turnLines text
  | .blocks blocks => blocks.flatMap (blockLines pretty)

private theorem fencedLines_line {fence : Bytes} (hf : newline ∉ fence) (heading text : Bytes) :
    ∀ l ∈ fencedLines heading fence text, newline ∉ l := by
  intro l hl
  simp only [fencedLines, List.mem_append, List.mem_cons, List.not_mem_nil, or_false] at hl
  rcases hl with hl | rfl | hl | rfl | rfl
  · exact turnLines_line _ l hl
  · exact hf
  · exact turnLines_line _ l hl
  · decide
  · exact List.not_mem_nil

private theorem blockLines_line (pretty : Bytes → Bytes) (b : ContentBlock) :
    ∀ l ∈ blockLines pretty b, newline ∉ l := by
  cases b with
  | text text => exact turnLines_line text
  | toolUse id name input => exact fencedLines_line (by decide) _ _
  | toolResult toolUseId content isError => exact fencedLines_line (by decide) _ _

theorem bodyLines_line (pretty : Bytes → Bytes) (content : MessageContent) :
    ∀ l ∈ bodyLines pretty content, newline ∉ l := by
  cases content with
  | text text => exact turnLines_line text
  | blocks blocks =>
    intro l hl
    obtain ⟨b, _, hl⟩ := List.mem_flatMap.mp hl
    exact blockLines_line pretty b l hl

private theorem blockMarkdown_eq (pretty : Bytes → Bytes) (b : ContentBlock) :
    blockMarkdown pretty b = linesText (blockLines pretty b) := by
  have hopen : ascii ")\n```json\n" = ascii ")" ++ newline :: (ascii "```json" ++ [newline]) := rfl
  have hplain : ascii ")\n```\n" = ascii ")" ++ newline :: (ascii "```" ++ [newline]) := rfl
  have hclose : ascii "\n```\n\n" = newline :: (ascii "```" ++ [newline, newline]) := rfl
  cases b with
  | text text => exact (linesText_turnLines text).symm
  | toolUse id name input =>
    simp [blockMarkdown, blockLines, fencedLines, linesText_append, linesText_cons,
      linesText_turnLines, hopen, hclose]
  | toolResult toolUseId content isError =>
    simp [blockMarkdown, blockLines, fencedLines, linesText_append, linesText_cons,
      linesText_turnLines, hplain, hclose]

theorem contentMarkdown_eq (pretty : Bytes → Bytes) (content : MessageContent) :
    contentMarkdown pretty content = linesText (bodyLines pretty content) := by
  cases content with
  | text text => exact (linesText_turnLines text).symm
  | blocks blocks =>
    simp only [contentMarkdown, bodyLines]
    induction blocks with
    | nil => rfl
    | cons b blocks ih =>
      rw [List.flatMap_cons, List.flatMap_cons, linesText_append, ih, blockMarkdown_eq]

def turnHeading (role : Role) : Bytes := ascii "### " ++ roleLabel role

def messageLines (pretty : Bytes → Bytes) (m : Message) : List Bytes :=
  turnHeading m.role :: [] :: bodyLines pretty m.content

private theorem turnHeading_line (role : Role) : newline ∉ turnHeading role := by
  cases role <;> decide

private theorem messageLines_line (pretty : Bytes → Bytes) (m : Message) :
    ∀ l ∈ messageLines pretty m, newline ∉ l := by
  intro l hl
  rcases List.mem_cons.mp hl with rfl | hl
  · exact turnHeading_line m.role
  · rcases List.mem_cons.mp hl with rfl | hl
    · exact List.not_mem_nil
    · exact bodyLines_line pretty m.content l hl

private theorem messageMarkdown_eq (pretty : Bytes → Bytes) (m : Message) :
    messageMarkdown pretty m = linesText (messageLines pretty m) := by
  have hopen : ascii "\n\n" = [newline, newline] := rfl
  rw [messageLines, linesText_cons, linesText_cons, ← contentMarkdown_eq, messageMarkdown, hopen,
    turnHeading]
  simp

/-- The lines of a conversation, with the separators between its turns. -/
def conversationLines (pretty : Bytes → Bytes) : List Message → List Bytes
  | [] => []
  | [m] => messageLines pretty m
  | m :: rest =>
    messageLines pretty m ++ [] :: breakLine :: [] :: conversationLines pretty rest

private theorem conversationToMarkdown_eq (pretty : Bytes → Bytes) (conversation : List Message) :
    conversationToMarkdown pretty conversation =
      linesText (conversationLines pretty conversation) := by
  induction conversation with
  | nil => rfl
  | cons m rest ih =>
    cases rest with
    | nil => exact messageMarkdown_eq pretty m
    | cons next rest =>
      have hbreak : ascii "\n---\n\n" = newline :: (breakLine ++ [newline, newline]) := rfl
      rw [conversationToMarkdown, conversationLines, linesText_append, linesText_cons,
        linesText_cons, linesText_cons, ← ih, messageMarkdown_eq, hbreak]
      · simp
      all_goals exact List.cons_ne_nil _ _

/-- A conversation is read turn by turn. -/
private theorem sections_conversation (pretty : Bytes → Bytes) (conversation : List Message) :
    sections (conversationLines pretty conversation) =
      conversation.flatMap fun m => sections (messageLines pretty m) := by
  induction conversation with
  | nil => rfl
  | cons m rest ih =>
    cases rest with
    | nil => simp [conversationLines]
    | cons next rest =>
      rw [conversationLines, sections_append (messageLines_line pretty m),
        sections_skip (by decide) (by decide), ih]
      · rfl
      · exact List.cons_ne_nil _ _

/-- What a turn should be read back as: the owner's body, and nothing of the pulse. -/
def saidIn (pretty : Bytes → Bytes) (m : Message) : List Bytes :=
  match m.role with
  | .user => [newline :: contentMarkdown pretty m.content]
  | .assistant => []

/-- No line of a turn is read as the end of the owner's words, or as their start. -/
def Plain (pretty : Bytes → Bytes) (m : Message) : Prop :=
  match m.role with
  | .user => breakLine ∉ bodyLines pretty m.content
  | .assistant => userLine ∉ bodyLines pretty m.content

private theorem sections_message (pretty : Bytes → Bytes) (m : Message) :
    (saidIn pretty m).length ≤ (sections (messageLines pretty m)).length ∧
      (sections (messageLines pretty m) = saidIn pretty m ↔ Plain pretty m) := by
  obtain ⟨role, content, source⟩ := m
  have hbody := bodyLines_line pretty content
  cases role with
  | user =>
    have hlines : messageLines pretty ⟨.user, content, source⟩ =
        userLine :: [] :: bodyLines pretty content := rfl
    rw [hlines]
    by_cases hmem : breakLine ∈ bodyLines pretty content
    · obtain ⟨u, v, huv, hnot⟩ := List.eq_append_cons_of_mem hmem
      have hu : ∀ l ∈ u, newline ∉ l := fun l hl => hbody l (by simp [huv, hl])
      have hsec := sections_closed [] (by simp) hu hnot v
      rw [List.nil_append, ← huv] at hsec
      rw [hsec]
      refine ⟨by simp [saidIn], fun h => ?_, fun h => absurd hmem h⟩
      -- the section ends before the separator the owner wrote
      have hfirst : linesAfter u = newline :: contentMarkdown pretty content := (List.cons.inj h).1
      rw [contentMarkdown_eq, ← linesAfter_newline, huv] at hfirst
      have hlen := congrArg List.length hfirst
      simp only [linesAfter, List.flatMap_append, List.length_append, List.length_cons] at hlen
      omega
    · rw [sections_open [] (by simp) hbody hmem, linesText_cons, ← contentMarkdown_eq]
      exact ⟨by simp [saidIn], fun _ => hmem, fun _ => rfl⟩
  | assistant =>
    have hskip : sections (messageLines pretty ⟨.assistant, content, source⟩) =
        sections (bodyLines pretty content) := by
      have hne : turnHeading .assistant ≠ userLine := by decide
      rw [messageLines, sections_skip (turnHeading_line _) hne,
        sections_skip (by simp) (by decide)]
    rw [hskip]
    exact ⟨Nat.zero_le _, sections_eq_nil hbody⟩

private theorem append_eq_iff {a b c d : List Bytes} (ha : c.length ≤ a.length)
    (hb : d.length ≤ b.length) : a ++ b = c ++ d ↔ a = c ∧ b = d := by
  constructor
  · intro h
    have hlen := congrArg List.length h
    rw [List.length_append, List.length_append] at hlen
    exact List.append_inj h (by omega)
  · rintro ⟨rfl, rfl⟩
    rfl

private theorem length_conversation (pretty : Bytes → Bytes) (conversation : List Message) :
    (conversation.flatMap (saidIn pretty)).length ≤
      (conversation.flatMap fun m => sections (messageLines pretty m)).length := by
  induction conversation with
  | nil => exact le_rfl
  | cons m rest ih =>
    rw [List.flatMap_cons, List.flatMap_cons, List.length_append, List.length_append]
    exact Nat.add_le_add (sections_message pretty m).1 ih

private theorem conversation_plain (pretty : Bytes → Bytes) (conversation : List Message) :
    (conversation.flatMap fun m => sections (messageLines pretty m)) =
      conversation.flatMap (saidIn pretty) ↔ ∀ m ∈ conversation, Plain pretty m := by
  induction conversation with
  | nil => simp
  | cons m rest ih =>
    rw [List.flatMap_cons, List.flatMap_cons, List.forall_mem_cons, ← ih,
      ← (sections_message pretty m).2]
    exact append_eq_iff (sections_message pretty m).1 (length_conversation pretty rest)

/-! The lines before it. -/

def frontLines (number : Nat) (date : Bytes) (metadata : ArchiveMeta) : List Bytes :=
  turnLines (ascii "log: " ++ Text.decimal number) ++
    turnLines (ascii "date: \"" ++ date ++ ascii "\"") ++
    turnLines (ascii "trigger: " ++ metadata.trigger) ++
    turnLines (ascii "channel: " ++ metadata.channel) ++
    turnLines (ascii "pulse: \"" ++ metadata.pulseName ++ ascii "\"") ++
    (match metadata.sessionKey with
      | some key => turnLines (ascii "session_key: \"" ++ key ++ ascii "\"")
      | none => [])

private theorem archiveFront_eq (number : Nat) (date : Bytes) (metadata : ArchiveMeta) (n : Nat) :
    archiveFront number date metadata n = breakLine ++ newline :: linesText
      (frontLines number date metadata ++ (ascii "message_count: " ++ Text.decimal n) :: breakLine ::
        [[], ascii "# Conversation " ++ padThree number, []]) := by
  have hlog : ascii "---\nlog: " = breakLine ++ newline :: ascii "log: " := rfl
  have hdate : ascii "\ndate: \"" = newline :: ascii "date: \"" := rfl
  have htrigger : ascii "\"\ntrigger: " = ascii "\"" ++ newline :: ascii "trigger: " := rfl
  have hchannel : ascii "\nchannel: " = newline :: ascii "channel: " := rfl
  have hpulse : ascii "\npulse: \"" = newline :: ascii "pulse: \"" := rfl
  have hquote : ascii "\"\n" = ascii "\"" ++ [newline] := rfl
  have hhead : ascii "\n---\n\n# Conversation " =
    newline :: (breakLine ++ newline :: newline :: ascii "# Conversation ") := rfl
  have hend : ascii "\n\n" = [newline, newline] := rfl
  cases hkey : metadata.sessionKey <;>
    simp [archiveFront, frontLines, linesText_append, linesText_cons, linesText_turnLines, hkey,
      hlog, hdate, htrigger, hchannel, hpulse, hquote, hhead, hend]

/-- An archive is read as the owner's words in order when no line of it passes for a delimiter that
it is not. -/
theorem userSections_archive (pretty : Bytes → Bytes) (number : Nat) (date : Bytes)
    (metadata : ArchiveMeta) (conversation : List Message) :
    userSections (archiveText pretty number date metadata conversation) =
        conversation.flatMap (saidIn pretty) ↔
      userLine ∉ frontLines number date metadata ∧ ∀ m ∈ conversation, Plain pretty m := by
  have hnumber (n : Nat) : newline ∉ Text.decimal n := fun h => nomatch Text.decimal_digits n _ h
  have hcount : newline ∉ ascii "message_count: " ++ Text.decimal conversation.length := by
    rw [List.mem_append, not_or]
    exact ⟨by decide, hnumber _⟩
  have htitle : newline ∉ ascii "# Conversation " ++ padThree number := by
    simp only [padThree, List.mem_append, List.mem_replicate, not_or]
    exact ⟨by decide, by simp [newline], hnumber _⟩
  have hfront : ∀ l ∈ frontLines number date metadata, newline ∉ l := by
    intro l hl
    simp only [frontLines, List.mem_append] at hl
    rcases hl with ((((hl | hl) | hl) | hl) | hl) | hl
    any_goals exact turnLines_line _ l hl
    cases hkey : metadata.sessionKey with
    | none => rw [hkey] at hl; exact nomatch hl
    | some key => rw [hkey] at hl; exact turnLines_line _ l hl
  obtain ⟨said, hnil, _, hrest⟩ := sections_cut hcount (by simp [userLine, ascii])
    (by simp [breakLine, ascii]) _ le_rfl hfront
  have harchive : userSections (archiveText pretty number date metadata conversation) =
      said ++ conversation.flatMap fun m => sections (messageLines pretty m) := by
    rw [archiveText, archiveFront_eq, conversationToMarkdown_eq, List.append_assoc,
      List.cons_append, ← linesText_append, userSections_line (by decide), List.append_assoc,
      List.cons_append, List.cons_append, hrest, List.cons_append, List.cons_append,
      List.cons_append, List.nil_append, sections_skip (by simp) (by decide),
      sections_skip htitle (by simp [userLine, ascii]), sections_skip (by simp) (by decide),
      sections_conversation]
  have hsplit := append_eq_iff (a := said) (c := []) (Nat.zero_le _)
    (length_conversation pretty conversation)
  rw [List.nil_append] at hsplit
  rw [harchive, hsplit, conversation_plain, hnil]

/-- The owner's words survive composing a turn exactly when the message does not hold the composer's
marker, and survive archiving exactly when no line of the archive passes for a delimiter. -/
theorem owner_words_kept_iff (pretty : Bytes → Bytes) (warning : Bool)
    (channelContext : Option Bytes) (m : Bytes) (number : Nat) (date : Bytes)
    (metadata : ArchiveMeta) (conversation : List Message) :
    (ownerWords (composeUserMessage warning channelContext m) = trim m ↔ ¬ownerMarker <:+: m) ∧
      (userSections (archiveText pretty number date metadata conversation) =
          conversation.flatMap (saidIn pretty) ↔
        userLine ∉ frontLines number date metadata ∧ ∀ m ∈ conversation, Plain pretty m) :=
  ⟨ownerWords_compose warning channelContext m,
    userSections_archive pretty number date metadata conversation⟩

/-- A message that quotes the marker loses what precedes it, a rule in a message ends it, and a
heading in a reply makes the rest of the reply the owner's. -/
theorem owner_words_mixed :
    ownerWords (composeUserMessage false none (ascii "Log User message: hi")) = ascii "hi" ∧
      trim (ascii "Log User message: hi") = ascii "Log User message: hi" ∧
    userSections (archiveText (fun json => json) 1 (ascii "2026-01-01T00:00:00Z")
        ⟨ascii "end", ascii "chat", ascii "p", none⟩
        [⟨.user, .text (ascii "a\n---\nb"), none⟩,
          ⟨.assistant, .text (ascii "c\n### User\nd"), none⟩]) =
      [ascii "\na", ascii "d\n"] ∧
    [⟨.user, .text (ascii "a\n---\nb"), none⟩,
        ⟨.assistant, .text (ascii "c\n### User\nd"), none⟩].flatMap (saidIn fun json => json) =
      [ascii "\na\n---\nb\n"] := by
  decide +kernel

end PulseNull.Probe
