import PulseNull.Session.Message
import PulseNull.Text.Lines

/-! Token estimates, and the mechanical compaction of a conversation. -/
namespace PulseNull.Context
open Session (Role ContentBlock MessageContent MessageSource Message)
open Text (ascii newline)

def defaultContextBudget : Nat := 150000
def keepRecent : Nat := 20
def minMessagesForCompaction : Nat := 30
def charsPerToken : Nat := 4
def compactionCircuitBreakerThreshold : Nat := 3
def maxReinjectionFiles : Nat := 3
def maxReinjectionTokensPerFile : Nat := 5000

def blockChars : ContentBlock → Nat
  | .text text => text.length
  | .toolUse _ name input => name.length + input.length
  | .toolResult _ content _ => content.length

def estimateMessageTokens (msg : Message) : Nat :=
  let chars := match msg.content with
    | .text s => s.length
    | .blocks blocks => (blocks.map blockChars).sum
  chars / charsPerToken + 20

def estimateConversationTokens (conversation : List Message) : Nat :=
  (conversation.map estimateMessageTokens).sum

def microCompactMaxBlockTokens : Nat := 2000
def microCompactHeadLines : Nat := 20
def microCompactTailLines : Nat := 10
def resolvedAfterAssistantTurns : Nat := 2
def microCompactProtectedRecent : Nat := 10
def stripMinContentBytes : Nat := 200

/-- The em dash. -/
def emDash : Bytes := [226, 128, 148]

structure MicroCompactResult where
  tokensSaved : Nat
  blocksTruncated : Nat
  pairsStripped : Nat
  systemMessagesCollapsed : Nat
  deriving DecidableEq

/-- The first and the last lines, with a marker for those between. -/
def truncatePreservingEnds (content : Bytes) (headLines tailLines : Nat) : Bytes :=
  let lines := (Text.lines content).map Text.Line.content
  let total := lines.length
  if total ≤ headLines + tailLines then content
  else
    [newline].intercalate (lines.take headLines) ++ ascii "\n\n[... " ++
      Text.decimal (total - headLines - tailLines) ++ ascii " lines truncated ...]\n\n" ++
      [newline].intercalate (lines.drop (total - tailLines))

/-- The text to write in its place, if it is over the threshold. -/
def tryTruncateString (text : Bytes) : Option Bytes :=
  if microCompactMaxBlockTokens < text.length / charsPerToken then
    some (truncatePreservingEnds text microCompactHeadLines microCompactTailLines)
  else none

/-- Error results stay whole. -/
def truncateBlock : ContentBlock → ContentBlock × Nat
  | .toolResult id content isError =>
    if isError = some true then (.toolResult id content isError, 0)
    else match tryTruncateString content with
      | some shorter => (.toolResult id shorter isError, 1)
      | none => (.toolResult id content isError, 0)
  | .text text => match tryTruncateString text with
    | some shorter => (.text shorter, 1)
    | none => (.text text, 0)
  | .toolUse id name input => (.toolUse id name input, 0)

def truncateMessage (msg : Message) : Message × Nat :=
  match msg.content with
  | .blocks blocks =>
    let done := blocks.map truncateBlock
    ({ msg with content := .blocks (done.map Prod.fst) }, (done.map Prod.snd).sum)
  | .text text => match tryTruncateString text with
    | some shorter => ({ msg with content := .text shorter }, 1)
    | none => (msg, 0)

/-- Pass 1: outside the protected window. -/
def truncateLargeBlocks (messages : List Message) : List Message × Nat :=
  let cutoff := messages.length - microCompactProtectedRecent
  let done := (messages.take cutoff).map truncateMessage
  (done.map Prod.fst ++ messages.drop cutoff, (done.map Prod.snd).sum)

def strippable : ContentBlock → Option Bytes
  | .toolResult id content isError =>
    if stripMinContentBytes < content.length && isError ≠ some true then some id else none
  | _ => none

def isToolResult : Option MessageSource → Bool
  | some (.toolResult _) => true
  | _ => false

/-- The results that may be stripped from the message, where enough assistant messages follow. -/
def resolvedAt (messages : List Message) (cutoff i : Nat) : Option (Nat × List Bytes) := do
  let msg ← messages[i]?
  if !isToolResult msg.source then none
  let assistantAfter := ((messages.take cutoff).drop (i + 1)).countP (·.role = .assistant)
  if assistantAfter < resolvedAfterAssistantTurns then none
  match msg.content with
  | .blocks blocks =>
    let ids := blocks.filterMap strippable
    if ids = [] then none else some (i, ids)
  | .text _ => none

def mapBlocks (f : ContentBlock → ContentBlock) (msg : Message) : Message :=
  match msg.content with
  | .blocks blocks => { msg with content := .blocks (blocks.map f) }
  | .text _ => msg

def stripResult (ids : List Bytes) : ContentBlock → ContentBlock
  | .toolResult id content isError =>
    if id ∈ ids then
      .toolResult id (ascii "[Tool output processed " ++ emDash ++ ascii " " ++
        Text.decimal content.length ++ ascii " bytes]") isError
    else .toolResult id content isError
  | b => b

def stripUse (ids : List Bytes) : ContentBlock → ContentBlock
  | .toolUse id name input =>
    if id ∈ ids then .text (ascii "[Used tool: " ++ name ++ ascii "]") else .toolUse id name input
  | b => b

def isResultOf (ids : List Bytes) : ContentBlock → Bool
  | .toolResult id _ _ => id ∈ ids
  | _ => false

def blocksOf (msg : Message) : List ContentBlock :=
  match msg.content with
  | .blocks blocks => blocks
  | .text _ => []

/-- One resolved message: its results become markers, and so do the uses in the assistant message
right before it. -/
def stripPair (acc : List Message × Nat) (resolved : Nat × List Bytes) : List Message × Nat :=
  let (idx, ids) := resolved
  let stripped := ((acc.1[idx]?.map blocksOf).getD []).countP (isResultOf ids)
  let messages := acc.1.modify idx (mapBlocks (stripResult ids))
  let messages :=
    if 0 < idx && (messages[idx - 1]?.map (·.role)) = some .assistant then
      messages.modify (idx - 1) (mapBlocks (stripUse ids))
    else messages
  (messages, acc.2 + stripped)

/-- Pass 2: the results of tools that the conversation has gone past. -/
def stripResolvedToolPairs (messages : List Message) : List Message × Nat :=
  let cutoff := messages.length - microCompactProtectedRecent
  ((List.range cutoff).filterMap (resolvedAt messages cutoff)).foldl stripPair (messages, 0)

def extractText : ContentBlock → Option Bytes
  | .text text => some text
  | .toolResult _ content _ => some content
  | .toolUse .. => none

def extractMessageText (msg : Message) : Bytes :=
  match msg.content with
  | .text s => s
  | .blocks blocks => [newline].intercalate (blocks.filterMap extractText)

def absorb (msg next : Message) : Message :=
  match msg.content with
  | .text text => { msg with content := .text (text ++ ascii "\n\n" ++ extractMessageText next) }
  | .blocks blocks => { msg with content := .blocks (blocks ++ [.text (extractMessageText next)]) }

/-- The messages from `msg` on, adjacent system messages put together. -/
def collapseFrom (msg : Message) : List Message → List Message × Nat
  | [] => ([msg], 0)
  | next :: rest =>
    if msg.source = some .system && next.source = some .system then
      let r := collapseFrom (absorb msg next) rest
      (r.1, r.2 + 1)
    else
      let r := collapseFrom next rest
      (msg :: r.1, r.2)

/-- Pass 3. -/
def collapseConsecutiveSystemMessages : List Message → List Message × Nat
  | [] => ([], 0)
  | msg :: rest => collapseFrom msg rest

def microCompact (messages : List Message) : List Message × MicroCompactResult :=
  if messages.length < 3 then (messages, ⟨0, 0, 0, 0⟩)
  else
    let tokensBefore := estimateConversationTokens messages
    let (messages, blocksTruncated) := truncateLargeBlocks messages
    let (messages, pairsStripped) := stripResolvedToolPairs messages
    let (messages, systemMessagesCollapsed) := collapseConsecutiveSystemMessages messages
    (messages, ⟨tokensBefore - estimateConversationTokens messages, blocksTruncated, pairsStripped,
      systemMessagesCollapsed⟩)

end PulseNull.Context
