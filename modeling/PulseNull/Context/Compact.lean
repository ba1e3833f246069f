import PulseNull.Context.MicroCompact
import PulseNull.Session.Archive

/-! Compaction by summary: the old messages are replaced by a summary of them, followed by the plan
and the files of the session where they fit the budget. -/
namespace PulseNull.Context
open Session (Role ContentBlock MessageContent MessageSource Message ArchiveMeta safeTruncate)
open Text (ascii newline)

structure RecentFile where
  path : Bytes
  snippet : Bytes
  accessedAt : Int
  deriving DecidableEq

structure CompactionResult where
  compacted : Bool
  tokensBefore : Nat
  tokensAfter : Nat
  messagesSummarized : Nat
  circuitBreakerFired : Bool
  filesReinjected : Nat
  compactionFailures : Nat
  deriving DecidableEq

/-- `invoke` is the provider: system prompt, messages and output limit to the text of its answer. -/
structure CompactionParams where
  invoke : Bytes → List Message → Nat → Option Bytes
  contextBudget : Nat
  maxTokens : Nat
  pulseName : Bytes
  channel : Bytes
  sessionKey : Option Bytes
  compactionFailures : Nat
  recentlyAccessedFiles : List RecentFile
  activePlan : Option Bytes

def structuredSummarySystemPrompt : Bytes :=
  ascii ("You are summarizing a conversation for context continuity. The pulse will continue " ++
    "this conversation with ONLY your summary as history. Anything you don't include is gone.\n\n" ++
    "Produce a structured summary with these sections:\n\n" ++
    "1. CURRENT TASK: What is the pulse currently working on? What did the user last ask for?\n" ++
    "2. KEY DECISIONS: What was agreed, decided, or established? Include any code context, " ++
    "file paths, or technical specifics that were settled.\n" ++
    "3. OPEN THREADS: What questions are pending? What was promised but not yet delivered?\n" ++
    "4. CONTEXT LOST: List topics that were discussed but you're compressing away. " ++
    "Be specific ") ++ emDash ++
  ascii (" \"earlier discussion about database schema\" not " ++
    "\"some technical topics.\"\n" ++
    "5. RELATIONAL CONTEXT: Note any emotional tone, relationship dynamics, or conversation " ++
    "style that should carry forward.\n\n" ++
    "Be concise but never sacrifice task state for brevity. The pulse MUST know what " ++
    "it's supposed to be doing right now.")

def contentTruncateLen : Nat := 2000

def summaryText : ContentBlock → Option Bytes
  | .text text => some text
  | .toolUse _ name _ => some name
  | .toolResult _ content _ => if 500 < content.length then none else some content

def messageToText (msg : Message) : Bytes :=
  match msg.content with
  | .text s => s
  | .blocks blocks => (ascii " ").intercalate (blocks.filterMap summaryText)

def roleName : Role → Bytes
  | .user => ascii "User"
  | .assistant => ascii "Assistant"

def summaryLine (msg : Message) : Option Bytes :=
  let text := messageToText msg
  if text = [] then none
  else
    let truncated :=
      if contentTruncateLen < text.length then
        safeTruncate text (contentTruncateLen - 3) ++ ascii "..."
      else text
    some (roleName msg.role ++ ascii ": " ++ truncated)

def buildStructuredSummaryPrompt (messages : List Message) : Bytes :=
  ascii ("Summarize this conversation using the structured format described in your " ++
    "instructions.\n\n") ++ [newline].intercalate (messages.filterMap summaryLine)

def filePart (file : RecentFile) : Bytes :=
  let maxChars := maxReinjectionTokensPerFile * charsPerToken
  let snippet :=
    if maxChars < file.snippet.length then
      safeTruncate file.snippet maxChars ++ ascii "...\n[truncated " ++ emDash ++ ascii " " ++
        Text.decimal file.snippet.length ++ ascii " total bytes]"
    else file.snippet
  ascii "--- " ++ file.path ++ ascii " ---\n" ++ snippet

/-- The most recently accessed files, newest first. -/
def buildFileReinjection (recentFiles : List RecentFile) : Option Bytes :=
  if recentFiles = [] then none
  else
    let sorted := recentFiles.mergeSort fun a b => b.accessedAt ≤ a.accessedAt
    let selected := sorted.take maxReinjectionFiles
    let parts := (ascii "[Recently accessed files " ++ emDash ++
      ascii " re-injected after compaction]") ::
      (selected.map filePart ++ [ascii "[End recently accessed files]"])
    some ((ascii "\n\n").intercalate parts)

def systemMessage (text : Bytes) : Message := ⟨.user, .text text, some .system⟩

def summaryMessage (summary : Bytes) : Message :=
  systemMessage (ascii "[Structured context summary of earlier conversation]\n\n" ++ summary)

def planText (plan : Bytes) : Bytes :=
  ascii "[Active plan " ++ emDash ++ ascii " re-injected after compaction]\n\n" ++ plan ++
    ascii "\n\n[End active plan]"

/-- Whether a text still fits the budget beside the conversation. -/
def fits (budget : Nat) (conversation : List Message) (text : Bytes) : Bool :=
  estimateConversationTokens conversation + text.length / charsPerToken < budget

def injectPlan (budget : Nat) (activePlan : Option Bytes) (conversation : List Message) :
    List Message :=
  match activePlan with
  | none => conversation
  | some plan =>
    if fits budget conversation (planText plan) then
      conversation.insertIdx 1 (systemMessage (planText plan))
    else conversation

def injectFiles (budget : Nat) (p : CompactionParams) (conversation : List Message) :
    List Message × Nat :=
  let fileInsertPos := if p.activePlan.isSome then 2 else 1
  match buildFileReinjection p.recentlyAccessedFiles with
  | none => (conversation, 0)
  | some fileContent =>
    if fits budget conversation fileContent then
      (conversation.insertIdx (min fileInsertPos conversation.length) (systemMessage fileContent),
        min p.recentlyAccessedFiles.length maxReinjectionFiles)
    else (conversation, 0)

def effectiveBudget (contextBudget : Nat) : Nat :=
  if 0 < contextBudget then contextBudget else defaultContextBudget

/-- How many of the oldest messages a pass takes away. -/
def splitAt (conversation : List Message) : Nat :=
  conversation.length - min keepRecent conversation.length

/-- The pass over a conversation, its result, and what it hands to the archive. -/
structure Pass where
  conversation : List Message
  result : CompactionResult
  archived : Option (ArchiveMeta × List Message)

def untouched (conversation : List Message) : Pass := ⟨conversation, ⟨false, 0, 0, 0, false, 0, 0⟩, none⟩

def askSummary (p : CompactionParams) (old : List Message) : Option Bytes :=
  p.invoke structuredSummarySystemPrompt [systemMessage (buildStructuredSummaryPrompt old)]
    (min p.maxTokens 2048)

def archiveMeta (p : CompactionParams) : ArchiveMeta :=
  ⟨ascii "compaction", p.channel, p.pulseName, p.sessionKey⟩

/-- The messages are dropped and nothing stands for them. -/
def trimmed (tokensBefore drained failures : Nat) (fired : Bool) (conversation : List Message)
    (archived : Option (ArchiveMeta × List Message)) : Pass :=
  ⟨conversation, ⟨true, tokensBefore, estimateConversationTokens conversation, drained, fired, 0,
    failures⟩, archived⟩

/-- The summary, the plan and the files in front of what is kept. -/
def summarized (p : CompactionParams) (budget tokensBefore splitPos : Nat) (summary : Bytes)
    (conversation : List Message) (archived : Option (ArchiveMeta × List Message)) : Pass :=
  let conversation := summaryMessage summary :: conversation.drop splitPos
  let conversation := injectPlan budget p.activePlan conversation
  let (conversation, filesReinjected) := injectFiles budget p conversation
  ⟨conversation, ⟨true, tokensBefore, estimateConversationTokens conversation, splitPos, false,
    filesReinjected, 0⟩, archived⟩

def compactWithParams (conversation : List Message) (p : CompactionParams) : Pass :=
  let budget := effectiveBudget p.contextBudget
  let totalTokens := estimateConversationTokens conversation
  let splitPos := splitAt conversation
  if conversation.length < minMessagesForCompaction then untouched conversation
  else if totalTokens ≤ budget then untouched conversation
  else if compactionCircuitBreakerThreshold ≤ p.compactionFailures then
    let conversation := (microCompact conversation).1
    trimmed totalTokens (splitAt conversation) p.compactionFailures true
      (conversation.drop (splitAt conversation)) none
  else if splitPos < 2 then
    trimmed totalTokens splitPos p.compactionFailures false (conversation.drop splitPos) none
  else
    let old := conversation.take splitPos
    let archived := some (archiveMeta p, old)
    match askSummary p old with
    | some summary => summarized p budget totalTokens splitPos summary conversation archived
    | none =>
      trimmed totalTokens splitPos (p.compactionFailures + 1) false (conversation.drop splitPos) archived

variable {conversation : List Message} {p : CompactionParams} {summary : Bytes}

/-- The last messages of the conversation. -/
def recent (conversation : List Message) : List Message :=
  conversation.drop (conversation.length - keepRecent)

/-- The pass asks for a summary of the old messages and is given one. -/
structure Summarizes (conversation : List Message) (p : CompactionParams) (summary : Bytes) : Prop where
  long : minMessagesForCompaction ≤ conversation.length
  large : effectiveBudget p.contextBudget < estimateConversationTokens conversation
  unbroken : p.compactionFailures < compactionCircuitBreakerThreshold
  answer : askSummary p (conversation.take (conversation.length - keepRecent)) = some summary

/-- The plan message, if there is a plan and it fits. -/
def restoredPlan (conversation : List Message) (p : CompactionParams) (summary : Bytes) :
    Option Message :=
  p.activePlan.bind fun plan =>
    if fits (effectiveBudget p.contextBudget) (summaryMessage summary :: recent conversation)
        (planText plan) then
      some (systemMessage (planText plan))
    else none

/-- The conversation that the files are put into. -/
def beforeFiles (conversation : List Message) (p : CompactionParams) (summary : Bytes) : List Message :=
  summaryMessage summary :: ((restoredPlan conversation p summary).toList ++ recent conversation)

/-- The files message, if there are files and they fit. -/
def restoredFiles (conversation : List Message) (p : CompactionParams) (summary : Bytes) :
    Option Message :=
  (buildFileReinjection p.recentlyAccessedFiles).bind fun content =>
    if fits (effectiveBudget p.contextBudget) (beforeFiles conversation p summary) content then
      some (systemMessage content)
    else none

/-- The summary, the plan, the files, and then exactly the last messages of the old conversation. -/
def KeepsRecent (conversation : List Message) (p : CompactionParams) (summary : Bytes) : Prop :=
  (compactWithParams conversation p).conversation =
    summaryMessage summary :: ((restoredPlan conversation p summary).toList ++
      (restoredFiles conversation p summary).toList ++ recent conversation)

theorem splitAt_eq (h : minMessagesForCompaction ≤ conversation.length) :
    splitAt conversation = conversation.length - keepRecent := by
  unfold splitAt
  rw [Nat.min_eq_left (le_trans (by decide) h)]

/-- A pass that gets its summary. -/
theorem compact_summarized (h : Summarizes conversation p summary) :
    (compactWithParams conversation p).conversation =
      (injectFiles (effectiveBudget p.contextBudget) p
        (injectPlan (effectiveBudget p.contextBudget) p.activePlan
          (summaryMessage summary :: recent conversation))).1 := by
  have hsplit := splitAt_eq h.long
  have hmany : ¬conversation.length - keepRecent < 2 := by
    have hlong := h.long
    unfold minMessagesForCompaction keepRecent at *
    omega
  unfold compactWithParams
  simp only [hsplit]
  rw [if_neg (by have := h.long; omega), if_neg (by have := h.large; omega),
    if_neg (by have := h.unbroken; omega), if_neg hmany, h.answer]
  rfl

theorem recent_length (h : minMessagesForCompaction ≤ conversation.length) :
    (recent conversation).length = keepRecent := by
  unfold recent minMessagesForCompaction keepRecent at *
  rw [List.length_drop]
  omega

theorem injectPlan_eq :
    injectPlan (effectiveBudget p.contextBudget) p.activePlan
        (summaryMessage summary :: recent conversation) = beforeFiles conversation p summary := by
  unfold injectPlan beforeFiles restoredPlan
  cases p.activePlan with
  | none => rfl
  | some plan =>
    simp only [Option.bind_some]
    split <;> rfl

/-- Where the files go depends on whether there is a plan, not on whether it was put in. -/
theorem injectFiles_eq :
    (injectFiles (effectiveBudget p.contextBudget) p (beforeFiles conversation p summary)).1 =
      match restoredFiles conversation p summary with
      | none => beforeFiles conversation p summary
      | some files => (beforeFiles conversation p summary).insertIdx
          (min (if p.activePlan.isSome then 2 else 1) (beforeFiles conversation p summary).length)
          files := by
  unfold injectFiles restoredFiles
  cases buildFileReinjection p.recentlyAccessedFiles with
  | none => rfl
  | some content =>
    simp only [Option.bind_some]
    split <;> rfl

theorem restoredPlan_none (h : p.activePlan = none) : restoredPlan conversation p summary = none := by
  unfold restoredPlan
  rw [h]
  rfl

/-- Every other pass leaves the conversation alone, or its last messages, or the last ones of the
mechanical compaction. -/
theorem compact_otherwise (h : ∀ summary, ¬Summarizes conversation p summary) :
    (compactWithParams conversation p).conversation ∈
      [conversation, recent conversation, recent (microCompact conversation).1] := by
  have hrecent : ∀ c : List Message, c.drop (splitAt c) = recent c := by
    intro c
    unfold splitAt recent
    rcases Nat.le_total keepRecent c.length with hle | hle
    · rw [Nat.min_eq_left hle]
    · rw [Nat.min_eq_right hle, Nat.sub_eq_zero_of_le hle, Nat.sub_self]
  unfold compactWithParams
  by_cases hlong : conversation.length < minMessagesForCompaction
  · simp [hlong, untouched]
  by_cases hlarge : estimateConversationTokens conversation ≤ effectiveBudget p.contextBudget
  · simp [hlarge, untouched]
  by_cases hbreaker : compactionCircuitBreakerThreshold ≤ p.compactionFailures
  · simp [hlong, hlarge, hbreaker, trimmed, hrecent]
  by_cases hfew : splitAt conversation < 2
  · simp [hlong, hlarge, hbreaker, hfew, trimmed, hrecent]
  simp only [hlong, hlarge, hbreaker, hfew, if_false]
  cases hanswer : askSummary p (conversation.take (splitAt conversation)) with
  | none => simp [trimmed, hrecent]
  | some summary =>
    rw [splitAt_eq (Nat.le_of_not_lt hlong)] at hanswer
    exact absurd ⟨Nat.le_of_not_lt hlong, Nat.lt_of_not_le hlarge, Nat.lt_of_not_le hbreaker, hanswer⟩
      (h summary)

/-- The recent messages stay together exactly if a plan that is left out is not followed by files,
or the first of them is the same message. -/
theorem compaction_keeps_recent_iff (h : Summarizes conversation p summary) :
    KeepsRecent conversation p summary ↔
      (p.activePlan ≠ none → restoredPlan conversation p summary = none →
        ∀ files, restoredFiles conversation p summary = some files →
          (recent conversation).head? = some files) := by
  have hlen := recent_length h.long
  unfold KeepsRecent
  rw [compact_summarized h, injectPlan_eq, injectFiles_eq]
  unfold beforeFiles
  obtain ⟨first, rest, hrecent⟩ : ∃ first rest, recent conversation = first :: rest := by
    cases hr : recent conversation with
    | nil => simp [hr, keepRecent] at hlen
    | cons first rest => exact ⟨first, rest, rfl⟩
  cases hfiles : restoredFiles conversation p summary with
  | none => simp
  | some files =>
    cases hplan : p.activePlan with
    | none =>
      rw [restoredPlan_none hplan]
      simp [hrecent]
    | some plan =>
      cases hrestored : restoredPlan conversation p summary with
      | none => simp [hrecent, eq_comm]
      | some message => simp [hrecent]

/-- Thirty messages, a budget of 500 tokens, one file and a plan of the given length. -/
def sampleConversation : List Message :=
  List.replicate 30 ⟨.user, .text (ascii "hi"), some (.human (ascii "web") (ascii "dan"))⟩

def sampleParams (planLength : Nat) : CompactionParams where
  invoke _ _ _ := some (ascii "s")
  contextBudget := 500
  maxTokens := 1000
  pulseName := ascii "pulse"
  channel := ascii "web"
  sessionKey := none
  compactionFailures := 0
  recentlyAccessedFiles := [⟨ascii "/a", ascii "x", 0⟩]
  activePlan := some (List.replicate planLength 112)

theorem sample_summarizes (planLength : Nat) :
    Summarizes sampleConversation (sampleParams planLength) (ascii "s") :=
  have hlarge : effectiveBudget 500 < estimateConversationTokens sampleConversation := by
    decide +kernel
  ⟨by decide, hlarge, Nat.zero_lt_succ 2, rfl⟩

/-- A short plan is put in, and the files after it. -/
theorem compaction_keeps_recent_iff_sample :
    KeepsRecent sampleConversation (sampleParams 40) (ascii "s") := by
  have hplan : restoredPlan sampleConversation (sampleParams 40) (ascii "s") ≠ none := by
    decide +kernel
  exact (compaction_keeps_recent_iff (sample_summarizes 40)).mpr fun _ h => absurd h hplan

/-- A plan that does not fit is left out, and the files land behind the first recent message. -/
theorem files_split_recent : ¬∀ conversation p summary,
    Summarizes conversation p summary → KeepsRecent conversation p summary := by
  intro hclaim
  have hsplit : ¬KeepsRecent sampleConversation (sampleParams 400) (ascii "s") := by
    unfold KeepsRecent
    decide +kernel
  exact hsplit (hclaim _ _ _ (sample_summarizes 400))

end PulseNull.Context
