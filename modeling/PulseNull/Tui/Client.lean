import PulseNull.Framing
import PulseNull.Text.JoinLines
import PulseNull.Text.Lossy

/-! The client's reading of a stream of server-sent events. -/
namespace PulseNull.Tui
open Text (ascii newline)

structure SseEvent where
  id : Option Bytes
  event : Option Bytes
  data : Bytes
  deriving DecidableEq

def carriageReturn : UInt8 := 13

def colonByte : UInt8 := 58

/-- Where a part first stands. -/
def position (part : Bytes) : Bytes → Option ℕ
  | [] => none
  | c :: rest => if part.isPrefixOf (c :: rest) then some 0 else (position part rest).map (· + 1)

def lf : Bytes := [newline, newline]

def crlf : Bytes := [carriageReturn, newline, carriageReturn, newline]

/-- Position and length of the first event separator. -/
def findSeparator (buf : Bytes) : Option (ℕ × ℕ) :=
  match position lf buf, position crlf buf with
  | some a, some b => if a ≤ b then some (a, 2) else some (b, 4)
  | some a, none => some (a, 2)
  | none, some b => some (b, 4)
  | none, none => none

/-- A line's field and value. One blank after the colon is not of the value. -/
def field (line : Bytes) : Bytes × Bytes :=
  match line.dropWhile (· ≠ colonByte) with
  | [] => (line, [])
  | _ :: value => (line.takeWhile (· ≠ colonByte), (value.dropPrefix? [32]).getD value)

/-- What has been read of a block: its event but for the data, the data lines, and whether there was
any line. -/
structure Block where
  event : SseEvent
  dataLines : List Bytes
  any : Bool

def Block.read (b : Block) (line : Bytes) : Block :=
  if line = [] ∨ line.head? = some colonByte then b
  else
    let parts := field line
    if parts.1 = ascii "id" then ⟨{ b.event with id := some parts.2 }, b.dataLines, true⟩
    else if parts.1 = ascii "event" then ⟨{ b.event with event := some parts.2 }, b.dataLines, true⟩
    else if parts.1 = ascii "data" then ⟨b.event, b.dataLines ++ [parts.2], true⟩
    else ⟨b.event, b.dataLines, true⟩

def isLineEnd (c : UInt8) : Bool := c = newline || c = carriageReturn

def readLines (text : Bytes) : Block :=
  (text.splitOnP isLineEnd).foldl Block.read ⟨⟨none, none, []⟩, [], false⟩

/-- A block of comments only is no event. -/
def readBlock (block : Bytes) : Option SseEvent :=
  let b := readLines (Text.fromUtf8Lossy block)
  if b.any then some { b.event with data := Text.joinLines b.dataLines } else none

/-! Separators. -/

theorem position_eq_some {part buf : Bytes} {i : ℕ} : position part buf = some i ↔
    i < buf.length ∧ part <+: buf.drop i ∧ ∀ j < i, ¬ part <+: buf.drop j := by
  induction buf generalizing i with
  | nil => simp [position]
  | cons c rest ih =>
    rw [position]
    split
    · next hp =>
      rw [List.isPrefixOf_iff_prefix] at hp
      constructor
      · rintro ⟨⟩
        exact ⟨by simp, hp, nofun⟩
      · rintro ⟨-, -, hmin⟩
        cases i with
        | zero => rfl
        | succ i => exact absurd hp (hmin 0 (Nat.succ_pos i))
    · next hp =>
      rw [List.isPrefixOf_iff_prefix] at hp
      cases i with
      | zero =>
        simp only [Option.map_eq_some_iff, Nat.add_eq_zero_iff, one_ne_zero, and_false, exists_false,
          false_iff]
        exact fun h => hp h.2.1
      | succ i =>
        rw [Option.map_eq_some_iff]
        constructor
        · rintro ⟨k, h, hk⟩
          obtain rfl := Nat.succ.inj hk
          obtain ⟨hlt, hpre, hmin⟩ := ih.mp h
          refine ⟨Nat.succ_lt_succ hlt, hpre, fun j hj => ?_⟩
          cases j with
          | zero => exact hp
          | succ j => exact hmin j (Nat.lt_of_succ_lt_succ hj)
        · rintro ⟨hlt, hpre, hmin⟩
          exact ⟨i, ih.mpr ⟨Nat.lt_of_succ_lt_succ hlt, hpre, fun j hj => hmin (j + 1) (Nat.succ_lt_succ hj)⟩, rfl⟩

private theorem position_none {part buf : Bytes} (hne : part ≠ []) (h : position part buf = none) (j : ℕ) :
    ¬ part <+: buf.drop j := by
  intro hj
  have hlen : part.length ≤ buf.length - j := List.length_drop ▸ hj.length_le
  have hpos := List.length_pos_iff.mpr hne
  have hex : ∃ j, part <+: buf.drop j := ⟨j, hj⟩
  classical
  have hsome : position part buf = some (Nat.find hex) := by
    have hmin := Nat.find_min' hex hj
    exact position_eq_some.mpr ⟨by omega, Nat.find_spec hex, fun k hk => Nat.find_min hex hk⟩
  rw [h] at hsome
  exact nomatch hsome

/-- What stands before the end of the buffer stands in the buffer. -/
private theorem prefix_drop {part buf more : Bytes} {j : ℕ} (hj : j + part.length ≤ buf.length)
    (h : part <+: (buf ++ more).drop j) : part <+: buf.drop j := by
  rw [List.drop_append_of_le_length (by omega)] at h
  refine List.prefix_of_prefix_length_le h (List.prefix_append _ _) ?_
  rw [List.length_drop]
  omega

private theorem position_within {part buf : Bytes} {i : ℕ} (h : position part buf = some i) :
    i + part.length ≤ buf.length := by
  obtain ⟨hlt, hpre, -⟩ := position_eq_some.mp h
  have := hpre.length_le
  rw [List.length_drop] at this
  omega

private theorem position_append {part buf : Bytes} {i : ℕ} (h : position part buf = some i) (more : Bytes) :
    position part (buf ++ more) = some i := by
  have hw := position_within h
  obtain ⟨hlt, hpre, hmin⟩ := position_eq_some.mp h
  refine position_eq_some.mpr ⟨by rw [List.length_append]; omega, ?_, fun j hj hp => ?_⟩
  · rw [List.drop_append_of_le_length (by omega)]
    exact hpre.trans (List.prefix_append _ _)
  · exact hmin j hj (prefix_drop (by omega) hp)

private theorem prefix_getElem {part buf : Bytes} {j : ℕ} (h : part <+: buf.drop j) {k : ℕ} {c : UInt8}
    (hc : part[k]? = some c) : buf[j + k]? = some c := by
  obtain ⟨rest, hrest⟩ := h
  obtain ⟨hk, -⟩ := List.getElem?_eq_some_iff.mp hc
  rw [← List.getElem?_drop, ← hrest, List.getElem?_append_left hk, hc]

/-- One separator does not begin right before the other. -/
private theorem separators_apart {buf : Bytes} {a b : ℕ} (ha : lf <+: buf.drop a) (hb : crlf <+: buf.drop b) :
    a ≠ b + 1 := by
  have a1 : buf[a + 1]? = some newline := prefix_getElem ha rfl
  have b2 : buf[b + 2]? = some carriageReturn := prefix_getElem hb rfl
  rintro rfl
  rw [show b + 1 + 1 = b + 2 from rfl, b2] at a1
  exact absurd a1 (by decide)

private theorem findSeparator_within {buf : Bytes} {e n : ℕ} (h : findSeparator buf = some (e, n)) :
    0 < n ∧ e + n ≤ buf.length := by
  have hlf {a : ℕ} (ha : position lf buf = some a) : a + 2 ≤ buf.length := position_within ha
  have hcrlf {b : ℕ} (hb : position crlf buf = some b) : b + 4 ≤ buf.length := position_within hb
  unfold findSeparator at h
  split at h
  · next a b ha hb =>
    split at h
    · obtain ⟨rfl, rfl⟩ := Prod.mk.inj (Option.some.inj h)
      exact ⟨Nat.two_pos, hlf ha⟩
    · obtain ⟨rfl, rfl⟩ := Prod.mk.inj (Option.some.inj h)
      exact ⟨by decide, hcrlf hb⟩
  · next a ha hb =>
    obtain ⟨rfl, rfl⟩ := Prod.mk.inj (Option.some.inj h)
    exact ⟨Nat.two_pos, hlf ha⟩
  · next b ha hb =>
    obtain ⟨rfl, rfl⟩ := Prod.mk.inj (Option.some.inj h)
    exact ⟨by decide, hcrlf hb⟩
  · exact nomatch h

/-- No separator that comes to be whole later begins before one that is whole. -/
private theorem findSeparator_stable {buf : Bytes} {r : ℕ × ℕ} (more : Bytes) (h : findSeparator buf = some r) :
    findSeparator (buf ++ more) = some r := by
  unfold findSeparator at h
  split at h
  · next a b ha hb => rwa [findSeparator, position_append ha, position_append hb]
  · next a ha hb =>
    rw [findSeparator, position_append ha]
    cases hb' : position crlf (buf ++ more) with
    | none => exact h
    | some b =>
      have hle : a ≤ b := by
        by_contra hlt
        obtain ⟨-, hpre, -⟩ := position_eq_some.mp hb'
        obtain ⟨-, hpre', -⟩ := position_eq_some.mp (position_append ha more)
        have hnear : ¬ b + crlf.length ≤ buf.length := fun hfit =>
          position_none (List.cons_ne_nil _ _) hb b (prefix_drop hfit hpre)
        have hapart := separators_apart hpre' hpre
        have hwithin : a + 2 ≤ buf.length := position_within ha
        have hfour : crlf.length = 4 := rfl
        omega
      simp only [if_pos hle]
      exact h
  · next b ha hb =>
    rw [findSeparator, position_append hb]
    cases ha' : position lf (buf ++ more) with
    | none => exact h
    | some a =>
      have hlt : ¬ a ≤ b := by
        intro hle
        obtain ⟨-, hpre, -⟩ := position_eq_some.mp ha'
        have hwithin : b + 4 ≤ buf.length := position_within hb
        have hfit : a + lf.length ≤ buf.length := by
          rw [show lf.length = 2 from rfl]
          omega
        exact position_none (List.cons_ne_nil _ _) ha a (prefix_drop hfit hpre)
      simp only [if_neg hlt]
      exact h
  · exact nomatch h

/-! The stream. -/

/-- Blocks of a body, between the first separators. -/
def sse : Framing UInt8 := ⟨findSeparator, findSeparator_within, findSeparator_stable⟩

/-- The events of the whole blocks, and the partial tail. -/
def parseSse (buf : Bytes) : List SseEvent × Bytes :=
  ((sse.drain buf).1.filterMap readBlock, (sse.drain buf).2)

variable {ε : Type}

/-- The events of a body that comes in chunks. A trailing block without its separator is one too,
unless the connection failed. -/
def sseStream : Bytes → List (Except ε Bytes) → List (Except ε SseEvent)
  | buf, [] => (parseSse (buf ++ lf)).1.map .ok
  | buf, .ok bytes :: chunks =>
    (parseSse (buf ++ bytes)).1.map .ok ++ sseStream (parseSse (buf ++ bytes)).2 chunks
  | _, .error e :: _ => [.error e]

/-- The bytes that came in, and whether the connection then failed. -/
def received : List (Except ε Bytes) → Bytes × Option ε
  | [] => ([], none)
  | .ok bytes :: chunks => (bytes ++ (received chunks).1, (received chunks).2)
  | .error e :: _ => ([], some e)

private theorem parseSse_append (a b : Bytes) :
    (parseSse (a ++ b)).1 = (parseSse a).1 ++ (parseSse ((parseSse a).2 ++ b)).1 := by
  simp only [parseSse, Framing.drain_append a b, List.filterMap_append]

private theorem sseStream_from {buf : Bytes} (h : sse.find buf = none) (chunks : List (Except ε Bytes)) :
    sseStream buf chunks = match (received chunks).2 with
      | none => (parseSse (buf ++ (received chunks).1 ++ lf)).1.map .ok
      | some e => (parseSse (buf ++ (received chunks).1)).1.map .ok ++ [.error e] := by
  induction chunks generalizing buf with
  | nil => rw [sseStream, received, List.append_nil]
  | cons chunk chunks ih =>
    cases chunk with
    | error e =>
      simp only [sseStream, received, List.append_nil]
      rw [parseSse, Framing.drain_none h]
      rfl
    | ok bytes =>
      have hleft : sse.find (parseSse (buf ++ bytes)).2 = none := Framing.drain_left _
      rw [sseStream, ih hleft, received]
      dsimp only
      rw [← List.append_assoc]
      cases (received chunks).2 with
      | none =>
        dsimp only
        rw [← List.map_append, List.append_assoc (parseSse (buf ++ bytes)).2, ← parseSse_append]
        simp only [List.append_assoc]
      | some e =>
        dsimp only
        rw [← List.append_assoc, ← List.map_append, ← parseSse_append]

theorem sseStream_received (chunks : List (Except ε Bytes)) :
    sseStream [] chunks = match (received chunks).2 with
      | none => (parseSse ((received chunks).1 ++ lf)).1.map .ok
      | some e => (parseSse (received chunks).1).1.map .ok ++ [.error e] :=
  sseStream_from rfl chunks

/-- All that came in, in one chunk, with the failure after it. -/
def inOne (chunks : List (Except ε Bytes)) : List (Except ε Bytes) :=
  .ok (received chunks).1 :: ((received chunks).2.map .error).toList

private theorem received_inOne (chunks : List (Except ε Bytes)) :
    received (inOne chunks) = received chunks := by
  cases hr : received chunks with
  | mk bytes failed => cases failed <;> simp [inOne, hr, received]

/-- How the bytes of a stream were cut into chunks does not show in the events read of it. -/
theorem sseStream_chunks (chunks : List (Except ε Bytes)) :
    sseStream [] chunks = sseStream [] (inOne chunks) := by
  rw [sseStream_received, sseStream_received, received_inOne]

end PulseNull.Tui
