import PulseNull.Text.Trim

/-! The turn markers the reply guard cuts at: the table of patterns, where one of them matches, and
the incremental scan of a text that could still become one. -/
namespace PulseNull.Speech
open Text (ascii)

/-- A part of a marker pattern: a literal, `#{1,3}`, whitespace (`\s*` or `\s+`), `\w+`, and `\b`
after a word character. -/
inductive Piece where
  | lit (text : Bytes)
  | hashes
  | spaces (least : Nat)
  | word
  | boundary
  deriving DecidableEq

def turnMarkers : List (List Piece) :=
  [[.lit (ascii "\n[User]:")],
   [.lit (ascii "\n[Assistant]:")],
   [.lit (ascii "\n[Human]:")],
   [.lit (ascii "\nUser:")],
   [.lit (ascii "\nHuman:")],
   [.lit (ascii "\nAssistant:")],
   [.lit (ascii "\n"), .hashes, .lit (ascii " User"), .boundary],
   [.lit (ascii "\n"), .hashes, .lit (ascii " Assistant"), .boundary],
   [.lit (ascii "\n"), .hashes, .lit (ascii " Human"), .boundary],
   [.lit (ascii "<user>")],
   [.lit (ascii "</assistant>")],
   [.lit (ascii "<human>")],
   [.lit (ascii "\n**User:**")],
   [.lit (ascii "\n**Assistant:**")],
   [.lit (ascii "\n**Human:**")],
   [.lit (ascii "\n[System]:")],
   [.lit (ascii "\nSystem:")],
   [.lit (ascii "\n[AI]:")],
   [.lit (ascii "\nAI:")],
   [.lit (ascii "<|user|>")],
   [.lit (ascii "<|assistant|>")],
   [.lit (ascii "<|system|>")],
   [.lit (ascii "<|im_start|>")],
   [.lit (ascii "<|im_end|>")],
   [.lit (ascii "<assistant>")],
   [.lit (ascii "</user>")],
   [.lit (ascii "</human>")],
   [.lit (ascii "\n>"), .spaces 0, .lit (ascii "User:")],
   [.lit (ascii "\n>"), .spaces 0, .lit (ascii "Assistant:")],
   [.lit (ascii "[antml:thinking]")],
   [.lit (ascii "<invoke"), .spaces 1, .lit (ascii "name=")],
   [.lit (ascii "<function_calls>")],
   [.lit (ascii "<"), .word, .lit (ascii ":function_calls>")]]

example : turnMarkers.length = 33 := rfl

def isMarkerStart (byte : UInt8) : Bool := byte = 10 || byte = 60 || byte = 91

/-! Matching. -/

/-- Nothing but word characters. -/
def wordsFrom (stripWord : Bytes → Option Bytes) : Nat → Bytes → Bool
  | _, [] => true
  | 0, _ => false
  | n + 1, text => match stripWord text with
    | some rest => wordsFrom stripWord n rest
    | none => false

/-- The text starts with a match of the pattern. `stripWord` takes off a leading `\w` character. -/
def spans (stripWord : Bytes → Option Bytes) : List Piece → Bytes → Bool
  | [], _ => true
  | .lit l :: pieces, text => l.isPrefixOf text && spans stripWord pieces (text.drop l.length)
  | .hashes :: pieces, text => [1, 2, 3].any fun n =>
      (List.replicate n 35).isPrefixOf text && spans stripWord pieces (text.drop n)
  | .spaces least :: pieces, text => (List.range (text.length + 1)).any fun n =>
      least ≤ n && Text.blank (text.take n) && spans stripWord pieces (text.drop n)
  | .word :: pieces, text => (List.range (text.length + 1)).any fun n =>
      1 ≤ n && wordsFrom stripWord n (text.take n) && spans stripWord pieces (text.drop n)
  | .boundary :: pieces, text => (stripWord text).isNone && spans stripWord pieces text

/-- A marker matches at the start of the text. -/
def marker (stripWord : Bytes → Option Bytes) (text : Bytes) : Bool :=
  turnMarkers.any fun pieces => spans stripWord pieces text

private def startsWell : List Piece → Bool
  | .lit (b :: _) :: _ => isMarkerStart b
  | _ => false

/-- Every pattern starts with one of three bytes. -/
theorem marker_start {stripWord : Bytes → Option Bytes} {text : Bytes}
    (h : marker stripWord text = true) : ∃ b rest, text = b :: rest ∧ isMarkerStart b = true := by
  have table : turnMarkers.all startsWell = true := by decide
  obtain ⟨pieces, hp, hs⟩ := List.any_eq_true.mp h
  have hfirst := List.all_eq_true.mp table pieces hp
  unfold startsWell at hfirst
  split at hfirst
  · next b l rest =>
    simp only [spans, Bool.and_eq_true, List.isPrefixOf_iff_prefix] at hs
    obtain ⟨tail, rfl⟩ := hs.1
    exact ⟨b, l ++ tail, rfl, hfirst⟩
  · cases hfirst

/-- Where the leftmost match starts. -/
def leftmost (stripWord : Bytes → Option Bytes) (text : Bytes) : Option Nat :=
  (List.range (text.length + 1)).find? fun m => marker stripWord (text.drop m)

def guardMinBytes : Nat := 20

/-- What the reply guard keeps: the text up to the leftmost match without trailing whitespace, or
nothing when that is under the minimum; all of a text without a match. -/
def keptText (stripWord : Bytes → Option Bytes) (text : Bytes) : Bytes :=
  match leftmost stripWord text with
  | some m =>
    if (Text.trimEnd (text.take m)).length < guardMinBytes then [] else Text.trimEnd (text.take m)
  | none => text

/-! The automaton over the table, one byte at a time. A step may fail. -/

structure Automaton where
  State : Type
  start : Option State
  next : State → UInt8 → Option State
  isMatch : State → Bool
  isDead : State → Bool
  isQuit : State → Bool

namespace Automaton
variable (dfa : Automaton)

inductive Scan where
  | dead | viable
  deriving DecidableEq

def scanFrom : dfa.State → Bytes → Scan
  | state, [] => if dfa.isDead state then .dead else .viable
  | state, byte :: rest =>
    match dfa.next state byte with
    | none => .viable
    | some state =>
      if dfa.isQuit state || dfa.isMatch state then .viable
      else if dfa.isDead state then .dead
      else scanFrom state rest

/-- A start that is not provably dead stays held. -/
def scanSuffix (suffix : Bytes) : Scan :=
  match dfa.start with
  | none => .viable
  | some state =>
    if dfa.isMatch state then .viable
    else if dfa.isDead state then .dead
    else dfa.scanFrom state suffix

/-- The state after the bytes, when none on the way was a match or gave up. -/
def feed : dfa.State → Bytes → Option dfa.State
  | state, [] => some state
  | state, byte :: rest => (dfa.next state byte).bind fun state =>
    if dfa.isQuit state || dfa.isMatch state then none else feed state rest

/-- In a dead state no extension of what was fed starts with a marker. -/
def Sound (stripWord : Bytes → Option Bytes) : Prop :=
  ∀ start state fed, dfa.start = some start → dfa.isMatch start = false →
    dfa.feed start fed = some state → dfa.isDead state = true →
      ∀ more, marker stripWord (fed ++ more) = false

variable {dfa}

theorem feed_cons {state last : dfa.State} {byte : UInt8} {rest : Bytes}
    (h : dfa.feed state (byte :: rest) = some last) :
    ∃ state', dfa.next state byte = some state' ∧ dfa.feed state' rest = some last := by
  obtain ⟨state', hnext, h⟩ := Option.bind_eq_some_iff.mp h
  split_ifs at h
  exact ⟨state', hnext, h⟩

theorem scanFrom_dead {state : dfa.State} {suffix : Bytes} (h : dfa.scanFrom state suffix = .dead) :
    ∃ fed rest state', suffix = fed ++ rest ∧ dfa.feed state fed = some state' ∧
      dfa.isDead state' = true := by
  induction suffix generalizing state with
  | nil =>
    unfold scanFrom at h
    split_ifs at h with hd
    exact ⟨[], [], state, rfl, rfl, hd⟩
  | cons byte rest ih =>
    unfold scanFrom at h
    split at h
    · exact nomatch h
    next state' hnext =>
    split_ifs at h with hv hd
    · refine ⟨[byte], rest, state', rfl, ?_, hd⟩
      rw [feed, hnext, Option.bind_some, if_neg hv, feed]
    · obtain ⟨fed, tail, last, rfl, hfeed, hdead⟩ := ih h
      refine ⟨byte :: fed, tail, last, rfl, ?_, hdead⟩
      rw [feed, hnext, Option.bind_some, if_neg hv, hfeed]

/-- No marker starts where a scan found none could. -/
theorem Sound.scanSuffix {stripWord : Bytes → Option Bytes} (hs : dfa.Sound stripWord)
    {suffix : Bytes} (h : dfa.scanSuffix suffix = .dead) (more : Bytes) :
    marker stripWord (suffix ++ more) = false := by
  unfold Automaton.scanSuffix at h
  split at h
  · exact nomatch h
  next start hstart =>
  split_ifs at h with hm hd
  · exact hs start start [] hstart (by simpa using hm) rfl hd (suffix ++ more)
  · obtain ⟨fed, rest, state, rfl, hfeed, hdead⟩ := scanFrom_dead h
    rw [List.append_assoc]
    exact hs start state fed hstart (by simpa using hm) hfeed hdead (rest ++ more)

end Automaton
end PulseNull.Speech
