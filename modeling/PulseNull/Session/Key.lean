import PulseNull.Text.Bytes

/-! The resolved identity a turn runs as, and the session it lands in. Trust decisions ask the
key's principal, never its text. -/
namespace PulseNull.Session
open Text (ascii)

def ownerText : Bytes := ascii "owner"
def peerPrefix : Bytes := ascii "peer:"
def guestPrefix : Bytes := ascii "guest:"

/-- Who a resolved session key says is speaking. -/
inductive Principal where
  | owner
  | peer (name : Bytes)
  | guest (sender : Bytes)
  deriving DecidableEq, Repr

/-- The text of each principal's key. -/
def Principal.keyText : Principal → Bytes
  | .owner => ownerText
  | .peer name => peerPrefix ++ name
  | .guest sender => guestPrefix ++ sender

/-- A resolved session key. Only the three constructors below build one. -/
structure SessionKey where
  text : Bytes
  shape : ∃ p : Principal, text = p.keyText
  deriving DecidableEq

namespace SessionKey

def owner : SessionKey := ⟨ownerText, .owner, rfl⟩
def peer (name : Bytes) : SessionKey := ⟨peerPrefix ++ name, .peer name, rfl⟩
def guest (sender : Bytes) : SessionKey := ⟨guestPrefix ++ sender, .guest sender, rfl⟩

/-- `strip_prefix`. -/
def stripPrefix (p text : Bytes) : Option Bytes :=
  if p.isPrefixOf text then some (text.drop p.length) else none

/-- Who this key says is speaking. Unknown is never trusted. -/
def principal (key : SessionKey) : Principal :=
  if key.text = ownerText then .owner
  else match stripPrefix peerPrefix key.text with
    | some name => .peer name
    | none => .guest ((stripPrefix guestPrefix key.text).getD key.text)

def isOwner (key : SessionKey) : Bool := key.principal = .owner
def isPeer (key : SessionKey) : Bool := key.principal matches .peer _
def isGuest (key : SessionKey) : Bool := key.principal matches .guest _

theorem stripPrefix_append (p text : Bytes) : stripPrefix p (p ++ text) = some text := by
  rw [stripPrefix, if_pos (by simp), List.drop_left]

/-- The first byte of each class of key. -/
private def mark : Principal → UInt8
  | .owner => 111
  | .peer _ => 112
  | .guest _ => 103

private theorem keyText_ne {p q : Principal} (h : mark p ≠ mark q) : p.keyText ≠ q.keyText := by
  have head (p : Principal) : p.keyText.head? = some (mark p) := by cases p <;> rfl
  intro he
  have hm := congrArg List.head? he
  rw [head, head, Option.some.injEq] at hm
  exact h hm

private theorem guest_not_peer (sender : Bytes) :
    stripPrefix peerPrefix (guestPrefix ++ sender) = none := by
  rw [stripPrefix, if_neg]
  simp only [List.isPrefixOf_iff_prefix]
  rintro ⟨rest, h⟩
  exact keyText_ne (p := .peer rest) (q := .guest sender) (by simp [mark]) h

/-- A key is read back as the principal it was built for. -/
theorem principal_eq {key : SessionKey} {p : Principal} : key.principal = p ↔ key.text = p.keyText := by
  have read (p : Principal) (h : key.text = p.keyText) : key.principal = p := by
    unfold principal
    rw [h]
    cases p with
    | owner => rfl
    | peer name =>
      rw [Principal.keyText, if_neg, stripPrefix_append]
      exact keyText_ne (p := .peer name) (q := .owner) (by simp [mark])
    | guest sender =>
      rw [Principal.keyText, if_neg, guest_not_peer, stripPrefix_append]
      · rfl
      · exact keyText_ne (p := .guest sender) (q := .owner) (by simp [mark])
  refine ⟨?_, read p⟩
  rintro rfl
  obtain ⟨p, hp⟩ := key.shape
  rw [read p hp, hp]

@[simp] theorem isOwner_iff {key : SessionKey} : key.isOwner = true ↔ key = .owner := by
  rw [isOwner, decide_eq_true_eq, principal_eq]
  exact ⟨fun h => by cases key; cases h; rfl, fun h => by rw [h]; rfl⟩

@[simp] theorem peer_ne_owner (name : Bytes) : peer name ≠ owner := by
  intro h
  exact keyText_ne (p := .peer name) (q := .owner) (by simp [mark]) (congrArg SessionKey.text h)

@[simp] theorem guest_ne_owner (sender : Bytes) : guest sender ≠ owner := by
  intro h
  exact keyText_ne (p := .guest sender) (q := .owner) (by simp [mark]) (congrArg SessionKey.text h)

end SessionKey
end PulseNull.Session
