import PulseNull.Session.Wal
import PulseNull.Json.Extend
import PulseNull.Text.Lines
import PulseNull.Text.Chars

/-! The bytes of a session's log: what appends leave in the file, also those that are cut short, and
what is read from it. -/
namespace PulseNull.Session
open Text (ascii newline Complete)

/-- The text of an entry written at a time, and what a JSON value is read as. -/
structure WalText where
  inRange : Bytes → Bool
  encode : Bytes → WalEntry → Bytes
  ofValue : Json → Option WalEntry

/-- An append: it writes its line, or fails with its first `k` bytes landed. -/
structure WalAppend where
  ts : Bytes
  entry : WalEntry
  outcome : Option Nat

namespace WalText
variable (w : WalText)

/-- What an append leaves at the end of the file. -/
def written (a : WalAppend) : Bytes :=
  let line := w.encode a.ts a.entry ++ [newline]
  match a.outcome with
  | none => line
  | some k => line.take k

def append (file : Bytes) (a : WalAppend) : Bytes := file ++ w.written a

/-- The file after appends, oldest first. -/
def fileOf (appends : List WalAppend) : Bytes := appends.foldl w.append []

def decode (line : Bytes) : Option WalEntry := (Json.parse w.inRange line).bind w.ofValue

/-- Lines that are no entry are skipped; one that is not UTF-8 ends the reading with an error. -/
def readLines : List Text.Line → Option (List WalEntry)
  | [] => some []
  | l :: rest =>
    if Text.utf8Valid l.content = false then none
    else if Text.blank l.content then readLines rest
    else match w.decode l.content with
      | some entry => (readLines rest).map (entry :: ·)
      | none => readLines rest

def read (file : Bytes) : Option (List WalEntry) := w.readLines (Text.lines file)

/-- The text of the entry is an object on one line of UTF-8, and is read as the entry. -/
structure Writes (a : WalAppend) : Prop where
  braces : ∃ inner, w.encode a.ts a.entry = Json.openBrace :: (inner ++ [Json.closeBrace])
  noNewline : newline ∉ w.encode a.ts a.entry
  utf8 : Text.utf8Valid (w.encode a.ts a.entry) = true
  decoded : w.decode (w.encode a.ts a.entry) = some a.entry

/-- The entry of an append that succeeded, or whose text landed as a whole. -/
def landed (a : WalAppend) : Option WalEntry :=
  if a.outcome.all ((w.encode a.ts a.entry).length ≤ ·) then some a.entry else none

/-- Each entry whose append succeeded is read, once and in order, and of the others those that
landed as a whole. -/
def Returns (appends : List WalAppend) : Prop :=
  w.read (w.fileOf appends) = some (appends.filterMap w.landed)

/-- Nothing is written after a line without its newline, and no cut is inside a character. -/
def Meets : Bytes → List WalAppend → Prop
  | _, [] => True
  | file, a :: rest =>
    (w.written a ≠ [] → file = [] ∨ file.getLast? = some newline) ∧
      Text.utf8Valid (w.written a) = true ∧ Meets (w.append file a) rest

variable {w}

theorem readLines_cons (l : Text.Line) (rest : List Text.Line) :
    w.readLines (l :: rest) =
      if Text.utf8Valid l.content = false then none
      else if Text.blank l.content then w.readLines rest
      else match w.decode l.content with
        | some entry => (w.readLines rest).map (entry :: ·)
        | none => w.readLines rest := by
  rw [readLines]

theorem readLines_append (a b : List Text.Line) :
    w.readLines (a ++ b) = (w.readLines a).bind fun es => (w.readLines b).map (es ++ ·) := by
  induction a with
  | nil => simp [readLines]
  | cons l rest ih =>
    rw [List.cons_append, readLines_cons, readLines_cons]
    split
    · rfl
    split
    · exact ih
    split
    · rw [ih]
      cases w.readLines rest with
      | none => rfl
      | some es => cases w.readLines b <;> simp
    · exact ih

theorem complete_of_last {file : Bytes} (h : file = [] ∨ file.getLast? = some newline) :
    Complete file := by
  rcases h with rfl | h
  · exact .inl rfl
  · exact .inr ⟨_, (List.dropLast_append_getLast? newline h).symm⟩

theorem blank_brace (rest : Bytes) : Text.blank (Json.openBrace :: rest) = false := rfl

/-- A line that is the text of an entry. -/
theorem Writes.readLine {a : WalAppend} (h : w.Writes a) (terminated : Bool) :
    w.readLines [⟨w.encode a.ts a.entry, terminated⟩] = some [a.entry] := by
  obtain ⟨inner, hb⟩ := h.braces
  have htext : Text.Line.content ⟨w.encode a.ts a.entry, terminated⟩ = w.encode a.ts a.entry := by
    have hlast : (w.encode a.ts a.entry).getLast? ≠ some 13 := by
      rw [hb, ← List.cons_append, List.getLast?_concat]
      decide
    simp [Text.Line.content, hlast]
  have hblank : Text.blank (w.encode a.ts a.entry) = false := hb ▸ blank_brace _
  unfold readLines
  rw [htext, if_neg (by simp [h.utf8]), if_neg (by simp [hblank]), h.decoded]
  rfl

/-- A line that is a part of the text of an entry is skipped. -/
theorem Writes.readPart {a : WalAppend} (h : w.Writes a) {k : Nat}
    (hk : k < (w.encode a.ts a.entry).length)
    (hu : Text.utf8Valid ((w.encode a.ts a.entry).take k) = true) :
    w.readLines [⟨(w.encode a.ts a.entry).take k, false⟩] = some [] := by
  obtain ⟨inner, hb⟩ := h.braces
  have hnone : w.decode ((w.encode a.ts a.entry).take k) = none := by
    obtain ⟨v, hparse, -⟩ := Option.bind_eq_some_iff.mp h.decoded
    rw [hb] at hk hparse ⊢
    cases k with
    | zero => rfl
    | succ k =>
      have hsplit : Json.openBrace :: (inner ++ [Json.closeBrace]) =
          Json.openBrace :: (inner ++ [Json.closeBrace]).take k ++
            (inner ++ [Json.closeBrace]).drop k := by
        rw [List.cons_append, List.take_append_drop]
      have hbrace : Json.closeBrace ∈ (inner ++ [Json.closeBrace]).drop k := by
        simp only [List.length_cons, List.length_append, List.length_nil] at hk
        rw [List.drop_append_of_le_length (by omega)]
        simp
      rw [hsplit] at hparse
      unfold decode
      rw [List.take_succ_cons, Json.parse_prefix (by decide) hbrace hparse]
      rfl
  have htext : Text.Line.content ⟨(w.encode a.ts a.entry).take k, false⟩ =
        (w.encode a.ts a.entry).take k := by
    simp [Text.Line.content]
  unfold readLines
  rw [htext, if_neg (by simp [hu]), hnone]
  split <;> rfl

/-- What an append leaves is read as what it landed. -/
theorem Writes.readWritten {a : WalAppend} (h : w.Writes a)
    (hu : Text.utf8Valid (w.written a) = true) :
    w.readLines (Text.lines (w.written a)) = some (w.landed a).toList := by
  have hwhole : Text.lines (w.encode a.ts a.entry ++ [newline]) = [⟨w.encode a.ts a.entry, true⟩] := by
    rw [Text.lines_line h.noNewline, Text.lines_nil]
  cases ho : a.outcome with
  | none =>
    have hwritten : w.written a = w.encode a.ts a.entry ++ [newline] := by simp [written, ho]
    rw [hwritten, hwhole, h.readLine]
    simp [landed, ho]
  | some k =>
    rcases Nat.lt_or_ge (w.encode a.ts a.entry).length k with hk | hk
    · have hwritten : w.written a = w.encode a.ts a.entry ++ [newline] := by
        simp only [written, ho]
        exact List.take_of_length_le (by simpa using hk)
      rw [hwritten, hwhole, h.readLine]
      simp [landed, ho, hk.le]
    · have hwritten : w.written a = (w.encode a.ts a.entry).take k := by
        simp only [written, ho]
        exact List.take_append_of_le_length hk
      have hnl : newline ∉ (w.encode a.ts a.entry).take k := fun hm =>
        h.noNewline (List.mem_of_mem_take hm)
      rw [hwritten] at hu ⊢
      rcases eq_or_ne ((w.encode a.ts a.entry).take k) [] with hnil | hne
      · have hlen : ¬(w.encode a.ts a.entry).length ≤ k := by
          obtain ⟨inner, hb⟩ := h.braces
          rw [hb] at hnil ⊢
          cases k with
          | zero => simp
          | succ k => exact nomatch hnil
        rw [hnil]
        simp [landed, ho, hlen, readLines]
      · rw [Text.lines_unterminated hnl hne]
        rcases hk.eq_or_lt with rfl | hlt
        · rw [List.take_length, h.readLine]
          simp [landed, ho]
        · rw [h.readPart hlt hu]
          simp [landed, ho, hlt.not_ge]

theorem read_append {file : Bytes} {a : WalAppend} {es : List WalEntry} (h : w.Writes a)
    (hr : w.read file = some es) (hf : w.written a ≠ [] → file = [] ∨ file.getLast? = some newline)
    (hu : Text.utf8Valid (w.written a) = true) :
    w.read (w.append file a) = some (es ++ (w.landed a).toList) := by
  have hwritten := h.readWritten hu
  unfold append read at *
  rcases eq_or_ne (w.written a) [] with hnil | hne
  · rw [hnil] at hwritten ⊢
    have hnone : [] = (w.landed a).toList := Option.some.inj hwritten
    rw [List.append_nil, ← hnone, List.append_nil, hr]
  · rw [Text.lines_append (complete_of_last (hf hne)), readLines_append, hr, hwritten]
    rfl

theorem read_appends {file : Bytes} {appends : List WalAppend} {es : List WalEntry}
    (hw : ∀ a ∈ appends, w.Writes a) (hr : w.read file = some es) (hm : w.Meets file appends) :
    w.read (appends.foldl w.append file) = some (es ++ appends.filterMap w.landed) := by
  induction appends generalizing file es with
  | nil => simpa using hr
  | cons a rest ih =>
    obtain ⟨ha, hrest⟩ := List.forall_mem_cons.mp hw
    obtain ⟨hf, hu, hm⟩ := hm
    rw [List.foldl_cons, ih hrest (read_append ha hr hf hu) hm, List.append_assoc]
    congr 2
    rw [List.filterMap_cons]
    cases w.landed a <;> rfl

end WalText

/-- In a log whose appends all meet the condition a torn append damages nothing else. -/
theorem torn_append_harmless (w : WalText) (appends : List WalAppend)
    (hw : ∀ a ∈ appends, w.Writes a) (hm : w.Meets [] appends) : w.Returns appends := by
  have hnil : w.read [] = some [] := rfl
  have hread := WalText.read_appends hw hnil hm
  rwa [List.nil_append] at hread

def sampleEntry (seq : Nat) : WalEntry := ⟨seq, .user, .text (ascii "hi"), ⟨none, none⟩, .trunk⟩

/-- The text of the sample entries at one time. -/
def sampleWalText : WalText where
  inRange _ := true
  encode ts entry := ascii "\x7b\"ts\":\"" ++ ts ++ ascii "\",\"seq\":" ++ Text.decimal entry.seq ++
    ascii ",\"role\":\"user\",\"content\":\"hi\"\x7d"
  ofValue
    | .obj ms => match Json.lookup (ascii "seq") ms with
      | some (.num (.pos n)) => some (sampleEntry n.val)
      | _ => none
    | _ => none

def sampleAppend (seq : Nat) (outcome : Option Nat) : WalAppend :=
  ⟨ascii "2026-10-25T03:00:00Z", sampleEntry seq, outcome⟩

theorem sample_writes : ∀ seq ∈ [1, 2], ∀ outcome, sampleWalText.Writes (sampleAppend seq outcome) := by
  intro seq hseq outcome
  have hone : sampleWalText.encode (ascii "2026-10-25T03:00:00Z") (sampleEntry 1) = Json.openBrace ::
      (ascii "\"ts\":\"2026-10-25T03:00:00Z\",\"seq\":1,\"role\":\"user\",\"content\":\"hi\"" ++
        [Json.closeBrace]) := by decide +kernel
  have htwo : sampleWalText.encode (ascii "2026-10-25T03:00:00Z") (sampleEntry 2) = Json.openBrace ::
      (ascii "\"ts\":\"2026-10-25T03:00:00Z\",\"seq\":2,\"role\":\"user\",\"content\":\"hi\"" ++
        [Json.closeBrace]) := by decide +kernel
  have hline : ∀ seq ∈ [1, 2],
      newline ∉ sampleWalText.encode (ascii "2026-10-25T03:00:00Z") (sampleEntry seq) ∧
        Text.utf8Valid (sampleWalText.encode (ascii "2026-10-25T03:00:00Z") (sampleEntry seq)) = true := by
    decide +kernel
  have hdecode : ∀ seq ∈ [1, 2], sampleWalText.decode
      (sampleWalText.encode (ascii "2026-10-25T03:00:00Z") (sampleEntry seq)) =
        some (sampleEntry seq) := by
    decide +kernel
  refine ⟨?_, (hline seq hseq).1, (hline seq hseq).2, hdecode seq hseq⟩
  simp only [List.mem_cons, List.not_mem_nil, or_false] at hseq
  rcases hseq with rfl | rfl
  · exact ⟨_, hone⟩
  · exact ⟨_, htwo⟩

/-- The last append is cut. -/
theorem torn_append_harmless_sample :
    sampleWalText.Returns [sampleAppend 1 none, sampleAppend 2 (some 9)] := by
  refine torn_append_harmless _ _ ?_ ?_
  · intro a ha
    simp only [List.mem_cons, List.not_mem_nil, or_false] at ha
    rcases ha with rfl | rfl
    · exact sample_writes 1 (by decide) _
    · exact sample_writes 2 (by decide) _
  · exact ⟨by decide +kernel, by decide +kernel, by decide +kernel, by decide +kernel, trivial⟩

/-- An entry that is appended after a torn one is not read. -/
theorem torn_append_swallows_next : ¬∀ (w : WalText) (appends : List WalAppend),
    (∀ a ∈ appends, w.Writes a) → w.Returns appends := by
  intro hclaim
  have hreturns := hclaim sampleWalText [sampleAppend 1 (some 9), sampleAppend 2 none] (by
    intro a ha
    simp only [List.mem_cons, List.not_mem_nil, or_false] at ha
    rcases ha with rfl | rfl
    · exact sample_writes 1 (by decide) _
    · exact sample_writes 2 (by decide) _)
  have hread : sampleWalText.read (sampleWalText.fileOf [sampleAppend 1 (some 9), sampleAppend 2 none]) =
      some [] := by
    decide +kernel
  have hlanded : [sampleAppend 1 (some 9), sampleAppend 2 none].filterMap sampleWalText.landed =
      [sampleEntry 2] := by
    decide +kernel
  unfold WalText.Returns at hreturns
  rw [hread, hlanded] at hreturns
  cases hreturns

end PulseNull.Session
