import PulseNull.Text.Bytes

/-! Conversation messages, as a provider request carries them. -/
namespace PulseNull.Session

inductive Role where
  | user | assistant
  deriving DecidableEq, Repr

/-- The input of a tool use is kept as its JSON text. -/
inductive ContentBlock where
  | text (text : Bytes)
  | toolUse (id name input : Bytes)
  | toolResult (toolUseId content : Bytes) (isError : Option Bool)
  deriving DecidableEq, Repr

inductive MessageContent where
  | text (text : Bytes)
  | blocks (blocks : List ContentBlock)
  deriving DecidableEq, Repr

/-- Where a message came from. -/
inductive MessageSource where
  | human (channel sender : Bytes)
  | assistant
  | system
  | scheduledTask (taskName : Bytes)
  | toolResult (toolUseId : Bytes)
  deriving DecidableEq, Repr

structure Message where
  role : Role
  content : MessageContent
  source : Option MessageSource
  deriving DecidableEq, Repr

end PulseNull.Session
