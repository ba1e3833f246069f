import PulseNull.Speech.Markers
import PulseNull.Session.Archive

/-! Clause-sized release of voice text the reply guard can no longer cut. -/
namespace PulseNull.Speech
open Session (isCharBoundary)
open Text (ascii stripBlank stripBlankEnd Solid isCont)

/-- 250 ms, in nanoseconds. -/
def firstReleaseHold : Nat := 250000000
def minReleaseBytes : Nat := 20
def noClauseReleaseBytes : Nat := 160

/-- Incremental release cursor for one voice round. Instants are in nanoseconds. -/
structure SpeechGate where
  buf : Bytes
  released : Nat
  sealed : Bool
  firstDeltaAt : Option Nat
  closed : Bool

def SpeechGate.new : SpeechGate := ⟨[], 0, false, none, false⟩

/-! Where the text may be cut. -/

def earliestFrom (dfa : Automaton) : Nat → Bytes → Nat
  | index, [] => index
  | index, byte :: rest =>
    if isMarkerStart byte && dfa.scanSuffix (byte :: rest) = .viable then index
    else earliestFrom dfa (index + 1) rest

/-- The first start at or after `start` that could still become a marker. -/
def earliestViable (dfa : Automaton) (buf : Bytes) (start : Nat) : Nat :=
  earliestFrom dfa (min start buf.length) (buf.drop (min start buf.length))

/-- `.`, `!`, `?`, `;`, `:`, `,`. -/
def isClausePunct (c : UInt8) : Bool := c = 46 || c = 33 || c = 63 || c = 59 || c = 58 || c = 44

/-- Last clause end in `buf[released..safe]`. The qualifying whitespace may sit on `safe`. -/
def lastClauseBoundary (buf : Bytes) (released safe : Nat) : Option Nat :=
  let regionEnd := min safe buf.length
  if !isCharBoundary buf released || !isCharBoundary buf regionEnd then none
  else
    let ends := (List.range (regionEnd - released)).filter fun rel =>
      buf[released + rel]?.any isClausePunct &&
        (stripBlank (buf.drop (released + rel + 1))).isSome && released + rel + 1 ≤ safe
    ends.getLast?.map fun rel => released + rel + 1

/-- Step back from `fin` over whitespace, down to `released`; `n` bounds the steps. -/
def backOver (buf : Bytes) (released : Nat) : Nat → Nat → Nat
  | 0, fin => fin
  | n + 1, fin =>
    if released < fin then
      match stripBlankEnd (buf.take fin) with
      | some rest => backOver buf released n rest.length
      | none => fin
    else fin

def lastSpaceBoundary (buf : Bytes) (released safe : Nat) : Option Nat :=
  if !isCharBoundary buf released || !isCharBoundary buf safe then none
  else do
    let fin := backOver buf released safe safe
    let relative ← ((List.range (fin - released)).filter fun rel =>
      buf[released + rel]? = some 32).getLast?
    let candidate := backOver buf released (released + relative) (released + relative)
    if released < candidate then some candidate else none

def releaseCandidate (buf : Bytes) (start safe : Nat) : Option Nat :=
  if safe ≤ start then none
  else match lastClauseBoundary buf start safe with
    | some fin => some fin
    | none => if noClauseReleaseBytes ≤ safe - start then lastSpaceBoundary buf start safe else none

namespace SpeechGate

/-- The first release waits for the hold. -/
def holdOpen (gate : SpeechGate) (now : Nat) : Bool :=
  if 0 < gate.released then false
  else match gate.firstDeltaAt with
    | none => true
    | some start => now - start < firstReleaseHold

def takeRelease (dfa : Automaton) (gate : SpeechGate) (now : Nat) : Option Bytes × SpeechGate :=
  if gate.sealed || gate.holdOpen now then (none, gate)
  else
    match releaseCandidate gate.buf gate.released (earliestViable dfa gate.buf gate.released) with
    | none => (none, gate)
    | some candidate =>
      if candidate ≤ gate.released || !isCharBoundary gate.buf candidate then (none, gate)
      else if (Text.trimEnd (gate.buf.take candidate)).length < minReleaseBytes then (none, gate)
      else
        (some ((gate.buf.take candidate).drop gate.released), { gate with released := candidate })

/-- Append `text` and return the newly releasable slice, if the hold allows one. -/
def push (dfa : Automaton) (gate : SpeechGate) (text : Bytes) (now : Nat) :
    Option Bytes × SpeechGate :=
  if gate.closed then (none, gate)
  else takeRelease dfa
    { gate with
      firstDeltaAt := if gate.firstDeltaAt.isNone && text ≠ [] then some now else gate.firstDeltaAt
      buf := gate.buf ++ text } now

inductive PrefixViolation where
  | mk

/-- Round end. `kept` is the guard's kept raw text. -/
def finish (gate : SpeechGate) (kept : Bytes) : Except PrefixViolation (Option Bytes) × SpeechGate :=
  let gate := { gate with closed := true }
  if !isCharBoundary gate.buf gate.released then (.error .mk, gate)
  else if !(gate.buf.take gate.released).isPrefixOf kept then (.error .mk, gate)
  else
    let rest := kept.drop gate.released
    let released :=
      if kept.isPrefixOf gate.buf then kept.length
      else if rest.isPrefixOf (gate.buf.drop gate.released) then gate.released + rest.length
      else gate.released
    (.ok (if rest = [] then none else some rest), { gate with released := released })

/-- Hold every later push. -/
def beginBlock (gate : SpeechGate) : SpeechGate := { gate with sealed := true }

/-- Drop this round's buffer. Further text is held, not released early. -/
def restartRound (gate : SpeechGate) : SpeechGate :=
  { gate with buf := [], released := 0, closed := false, sealed := true }

/-- The deltas of a reply, each with the clock at its push: what is spoken, and the gate after. -/
def pushAll (dfa : Automaton) (gate : SpeechGate) : List (Bytes × Nat) → Bytes × SpeechGate
  | [] => ([], gate)
  | (text, now) :: deltas =>
    let (piece, gate) := push dfa gate text now
    let (spoken, gate) := pushAll dfa gate deltas
    (piece.getD [] ++ spoken, gate)

/-- A sealed gate says nothing. -/
theorem push_sealed {dfa : Automaton} {gate : SpeechGate} (h : gate.sealed = true) (text : Bytes)
    (now : Nat) : (push dfa gate text now).1 = none ∧ (push dfa gate text now).2.sealed = true := by
  unfold push
  split
  · exact ⟨rfl, h⟩
  · rw [takeRelease, if_pos (by simp [h])]
    exact ⟨rfl, h⟩

end SpeechGate

/-! The hold-back. -/

variable {dfa : Automaton} {stripWord : Bytes → Option Bytes}

private theorem earliestFrom_spec (hs : dfa.Sound stripWord) (text : Bytes) (index : Nat) :
    index ≤ earliestFrom dfa index text ∧ earliestFrom dfa index text ≤ index + text.length ∧
      ∀ k, index + k < earliestFrom dfa index text →
        ∀ more, marker stripWord ((text ++ more).drop k) = false := by
  induction text generalizing index with
  | nil => exact ⟨le_rfl, le_rfl, fun k hk => absurd hk (by simp [earliestFrom])⟩
  | cons byte rest ih =>
    unfold earliestFrom
    split
    · exact ⟨le_rfl, by omega, fun k hk => absurd hk (by omega)⟩
    · next hv =>
      obtain ⟨hlo, hhi, hq⟩ := ih (index + 1)
      refine ⟨by omega, by simp only [List.length_cons]; omega, fun k hk more => ?_⟩
      cases k with
      | zero =>
        rw [List.drop_zero]
        by_contra hm
        rw [Bool.not_eq_false] at hm
        obtain ⟨b, tail, heq, hb⟩ := marker_start hm
        obtain ⟨rfl, _⟩ := List.cons.inj heq
        have hdead : dfa.scanSuffix (byte :: rest) = .dead := by
          cases hscan : dfa.scanSuffix (byte :: rest) with
          | dead => rfl
          | viable => simp [hb, hscan] at hv
        rw [hs.scanSuffix hdead] at hm
        exact nomatch hm
      | succ k => simpa using hq k (by omega) more

/-- No marker starts in what lies before the first viable start. -/
theorem earliestViable_spec (hs : dfa.Sound stripWord) {buf : Bytes} {start : Nat}
    (hle : start ≤ buf.length) : start ≤ earliestViable dfa buf start ∧
      earliestViable dfa buf start ≤ buf.length ∧
      ∀ i, start ≤ i → i < earliestViable dfa buf start →
        ∀ more, marker stripWord ((buf ++ more).drop i) = false := by
  unfold earliestViable
  rw [min_eq_left hle]
  obtain ⟨hlo, hhi, hq⟩ := earliestFrom_spec hs (buf.drop start) start
  rw [List.length_drop] at hhi
  refine ⟨hlo, by omega, fun i hi hlt more => ?_⟩
  have := hq (i - start) (by omega) more
  rwa [← List.drop_append_of_le_length hle, List.drop_drop, Nat.add_sub_cancel' hi] at this

/-! A candidate ends a word, and a whitespace character follows it. -/

/-- A character starts at `n`. -/
def StartsAt (buf : Bytes) (n : Nat) : Prop := ∃ b rest, buf.drop n = b :: rest ∧ isCont b = false

theorem StartsAt.isCharBoundary {buf : Bytes} {n : Nat} (h : StartsAt buf n) :
    isCharBoundary buf n = true := by
  obtain ⟨b, rest, hd, hb⟩ := h
  have hg : buf[n]? = some b := by
    have := @List.getElem?_drop _ buf n 0
    simpa [hd] using this.symm
  simp [Session.isCharBoundary, hg, hb]

private theorem startsAt_blank {buf c : Bytes} {n : Nat} (hc : Text.IsBlankChar c)
    (h : c <+: buf.drop n) : StartsAt buf n := by
  obtain ⟨b, cs, rfl, hb⟩ := hc.head
  obtain ⟨tail, ht⟩ := h
  exact ⟨b, cs ++ tail, ht.symm, hb⟩

/-- What a piece may end at. -/
structure CutAt (buf : Bytes) (n : Nat) : Prop where
  solid : Solid (buf.take n)
  starts : StartsAt buf n

theorem lastClauseBoundary_cut {buf : Bytes} {released safe c : Nat}
    (h : lastClauseBoundary buf released safe = some c) : released < c ∧ c ≤ safe ∧ CutAt buf c := by
  unfold lastClauseBoundary at h
  dsimp only at h
  split at h
  · exact nomatch h
  obtain ⟨rel, hrel, rfl⟩ := Option.map_eq_some_iff.mp h
  have hmem := (List.mem_filter.mp (List.mem_of_getLast? hrel)).2
  simp only [Bool.and_eq_true, decide_eq_true_eq] at hmem
  obtain ⟨⟨hpunct, hblank⟩, hsafe⟩ := hmem
  obtain ⟨b, hb, hp⟩ : ∃ b, buf[released + rel]? = some b ∧ isClausePunct b = true := by
    cases hb : buf[released + rel]? with
    | none => simp [hb] at hpunct
    | some b => exact ⟨b, rfl, by simpa [hb] using hpunct⟩
  refine ⟨by omega, hsafe, ?_, ?_⟩
  · rw [List.take_add_one, hb]
    simp only [isClausePunct, Bool.or_eq_true, decide_eq_true_eq] at hp
    refine Text.solid_of_last ?_ ?_ <;> rcases hp with ((((rfl | rfl) | rfl) | rfl) | rfl) | rfl <;> decide
  · obtain ⟨rest, hrest⟩ := Option.isSome_iff_exists.mp hblank
    obtain ⟨ws, hws, heq⟩ := Text.stripBlank_eq_some hrest
    exact startsAt_blank hws ⟨rest, heq.symm⟩

private theorem backOver_spec {buf : Bytes} {released : Nat} : ∀ {n fin : Nat}, fin ≤ n →
    fin ≤ buf.length → backOver buf released n fin ≤ fin ∧
      (backOver buf released n fin ≤ released ∨
        stripBlankEnd (buf.take (backOver buf released n fin)) = none) ∧
      (backOver buf released n fin = fin ∨ StartsAt buf (backOver buf released n fin))
  | 0, fin, hn, _ => by
    obtain rfl := Nat.le_zero.mp hn
    exact ⟨le_rfl, .inl (Nat.zero_le _), .inl rfl⟩
  | n + 1, fin, hn, hlen => by
    unfold backOver
    split
    next hlt =>
      cases hs : stripBlankEnd (buf.take fin) with
      | none => exact ⟨le_rfl, .inr hs, .inl rfl⟩
      | some rest =>
        obtain ⟨c, hc, heq⟩ := Text.stripBlankEnd_eq_some hs
        have hpos := List.length_pos_of_ne_nil hc.ne_nil
        have hl := congrArg List.length heq
        rw [List.length_take, min_eq_left hlen, List.length_append] at hl
        have hstarts : StartsAt buf rest.length := by
          refine startsAt_blank hc ⟨buf.drop fin, ?_⟩
          conv_rhs => rw [← List.take_append_drop fin buf, heq]
          rw [List.append_assoc, List.drop_left]
        have hrest : rest.length ≤ n := by omega
        obtain ⟨hle, hend, hst⟩ := @backOver_spec buf released n rest.length hrest (by omega)
        dsimp only
        refine ⟨hle.trans (by omega), hend, .inr ?_⟩
        rcases hst with he | hst
        · rwa [he]
        · exact hst
    next hle => exact ⟨le_rfl, .inl (by omega), .inl rfl⟩

theorem lastSpaceBoundary_cut {buf : Bytes} {released safe c : Nat} (hlen : safe ≤ buf.length)
    (h : lastSpaceBoundary buf released safe = some c) : released < c ∧ c ≤ safe ∧ CutAt buf c := by
  unfold lastSpaceBoundary at h
  split at h
  · exact nomatch h
  simp only [Option.bind_eq_bind, Option.bind_eq_some_iff] at h
  obtain ⟨relative, hrel, h⟩ := h
  split_ifs at h with hgt
  obtain rfl := Option.some.inj h
  obtain ⟨hrange, hspace⟩ := List.mem_filter.mp (List.mem_of_getLast? hrel)
  rw [List.mem_range] at hrange
  rw [decide_eq_true_eq] at hspace
  obtain ⟨hfin, _, _⟩ := @backOver_spec buf released safe safe le_rfl hlen
  obtain ⟨hle, hend, hst⟩ := @backOver_spec buf released (released + relative) (released + relative)
    le_rfl (by omega)
  refine ⟨hgt, by omega, Text.solid_of_stripBlankEnd (hend.resolve_left (by omega)), ?_⟩
  rcases hst with he | hst
  · rw [he]
    obtain ⟨hlt, hget⟩ := List.getElem?_eq_some_iff.mp hspace
    exact ⟨32, _, by rw [List.drop_eq_getElem_cons hlt, hget], rfl⟩
  · exact hst

theorem releaseCandidate_cut {buf : Bytes} {start safe c : Nat} (hlen : safe ≤ buf.length)
    (h : releaseCandidate buf start safe = some c) : start < c ∧ c ≤ safe ∧ CutAt buf c := by
  unfold releaseCandidate at h
  split at h
  · exact nomatch h
  split at h
  · next fin hc =>
    obtain rfl := Option.some.inj h
    exact lastClauseBoundary_cut hc
  · split at h
    · exact lastSpaceBoundary_cut hlen h
    · exact nomatch h

/-! The run. What was released is the released part of the buffer, no marker starts within it, and
it is nothing or a long enough text that ends where a piece may. -/

private theorem CutAt.append {text : Bytes} {n : Nat} (h : CutAt text n) (more : Bytes) :
    CutAt (text ++ more) n := by
  obtain ⟨b, rest, hd, hb⟩ := h.starts
  have hlt : n < text.length := by
    by_contra hge
    rw [List.drop_eq_nil_of_le (by omega)] at hd
    exact nomatch hd
  refine ⟨?_, b, rest ++ more, ?_, hb⟩
  · rw [List.take_append_of_le_length hlt.le]
    exact h.solid
  · rw [List.drop_append_of_le_length hlt.le, hd, List.cons_append]

structure Spoken (stripWord : Bytes → Option Bytes) (gate : SpeechGate) (text spoken : Bytes) :
    Prop where
  buf : gate.buf = text
  live : gate.closed = false
  spoken : spoken = text.take gate.released
  within : gate.released ≤ text.length
  cut : gate.released = 0 ∨ (guardMinBytes ≤ gate.released ∧ CutAt text gate.released)
  quiet : ∀ i < gate.released, ∀ more, marker stripWord ((text ++ more).drop i) = false

namespace Spoken
variable {gate : SpeechGate} {text spoken : Bytes}

theorem new : Spoken stripWord .new [] [] :=
  ⟨rfl, rfl, rfl, le_rfl, .inl rfl, fun _ hi => absurd hi (Nat.not_lt_zero _)⟩

theorem beginBlock (h : Spoken stripWord gate text spoken) :
    Spoken stripWord gate.beginBlock text spoken :=
  ⟨h.buf, h.live, h.spoken, h.within, h.cut, h.quiet⟩

theorem restartRound : Spoken stripWord gate.restartRound [] [] :=
  ⟨rfl, rfl, rfl, le_rfl, .inl rfl, fun _ hi => absurd hi (Nat.not_lt_zero _)⟩

/-- The buffer grows, nothing is released. -/
private theorem extend (h : Spoken stripWord gate text spoken) (delta : Bytes) (first : Option Nat) :
    Spoken stripWord { gate with firstDeltaAt := first, buf := gate.buf ++ delta } (text ++ delta)
      spoken := by
  refine ⟨congrArg (· ++ delta) h.buf, h.live, ?_, ?_, ?_, fun i hi more => ?_⟩
  · exact h.spoken.trans (List.take_append_of_le_length h.within).symm
  · exact h.within.trans (by simp)
  · exact h.cut.imp_right fun hc => ⟨hc.1, hc.2.append delta⟩
  · rw [List.append_assoc]
    exact h.quiet i hi (delta ++ more)

private theorem takeRelease (hs : dfa.Sound stripWord) (h : Spoken stripWord gate text spoken)
    (now : Nat) : Spoken stripWord (gate.takeRelease dfa now).2 text
      (spoken ++ (gate.takeRelease dfa now).1.getD []) := by
  have held : Spoken stripWord gate text (spoken ++ (none : Option Bytes).getD []) := by
    rwa [Option.getD_none, List.append_nil]
  unfold SpeechGate.takeRelease
  split
  · exact held
  split
  · exact held
  next candidate hcand =>
  split_ifs with hskip hfloor
  · exact held
  · exact held
  · rw [h.buf] at hcand hfloor ⊢
    obtain ⟨hlo, hhi, hquiet⟩ := earliestViable_spec hs h.within
    obtain ⟨hgt, hsafe, hcut⟩ := releaseCandidate_cut hhi hcand
    have hlen : candidate ≤ text.length := by omega
    -- the floor is on the trimmed text, and this text has nothing to trim
    rw [hcut.solid.trimEnd_eq, List.length_take, min_eq_left hlen, not_lt] at hfloor
    refine ⟨rfl, h.live, ?_, hlen, .inr ⟨hfloor, hcut⟩, fun i hi more => ?_⟩
    · have htake : text.take gate.released = (text.take candidate).take gate.released := by
        rw [List.take_take, min_eq_left hgt.le]
      rw [h.spoken, htake]
      exact List.take_append_drop _ _
    · by_cases hold : i < gate.released
      · exact h.quiet i hold more
      · exact hquiet i (by omega) (by dsimp only at hi; omega) more

theorem push (hs : dfa.Sound stripWord) (h : Spoken stripWord gate text spoken) (delta : Bytes)
    (now : Nat) : Spoken stripWord (gate.push dfa delta now).2 (text ++ delta)
      (spoken ++ (gate.push dfa delta now).1.getD []) := by
  unfold SpeechGate.push
  rw [if_neg (by simp [h.live])]
  exact (h.extend delta _).takeRelease hs now

theorem pushAll (hs : dfa.Sound stripWord) (deltas : List (Bytes × Nat))
    (h : Spoken stripWord gate text spoken) : Spoken stripWord (gate.pushAll dfa deltas).2
      (text ++ (deltas.map Prod.fst).flatten) (spoken ++ (gate.pushAll dfa deltas).1) := by
  induction deltas generalizing gate text spoken with
  | nil => simpa [SpeechGate.pushAll] using h
  | cons delta deltas ih =>
    have := ih (h.push hs delta.1 delta.2)
    rw [List.append_assoc, List.append_assoc] at this
    exact this

theorem isCharBoundary (h : Spoken stripWord gate text spoken) :
    isCharBoundary text gate.released = true := by
  rcases h.cut with h0 | ⟨_, hc⟩
  · rw [h0]
    simp [Session.isCharBoundary]
  · exact hc.starts.isCharBoundary

/-- No continuation makes the guard cut what was released. -/
theorem prefix_kept (h : Spoken stripWord gate text spoken) (more : Bytes) :
    spoken <+: keptText stripWord (text ++ more) := by
  rw [h.spoken]
  unfold keptText
  split
  · next m hm =>
    have hmarker : marker stripWord ((text ++ more).drop m) = true := by
      simpa using List.find?_some hm
    have hle : gate.released ≤ m := by
      by_contra hlt
      rw [h.quiet m (by omega) more] at hmarker
      exact nomatch hmarker
    rcases h.cut with h0 | ⟨hfloor, hcut⟩
    · simp [h0]
    obtain ⟨b, rest, hd, hb⟩ := (hcut.append more).starts
    have hsplit : (text ++ more).take m =
        text.take gate.released ++ ((text ++ more).drop gate.released).take (m - gate.released) := by
      rw [← List.take_append_of_le_length h.within, ← List.take_add,
        Nat.add_sub_cancel' hle]
    have hkept : text.take gate.released <+: Text.trimEnd ((text ++ more).take m) := by
      rw [hsplit, hd]
      refine hcut.solid.prefix_trimEnd fun b' bs heq => ?_
      cases hk : m - gate.released with
      | zero => simp [hk] at heq
      | succ k =>
        rw [hk, List.take_succ_cons] at heq
        exact (List.cons.inj heq).1 ▸ hb
    have hlen := hkept.length_le
    rw [List.length_take, min_eq_left h.within] at hlen
    rwa [if_neg (by omega)]
  · exact (List.take_prefix _ _).trans (List.prefix_append _ _)

theorem finish (h : Spoken stripWord gate text spoken) : ∃ rest,
    (gate.finish (keptText stripWord text)).1 = .ok rest ∧
      spoken ++ rest.getD [] = keptText stripWord text := by
  have hpre := h.prefix_kept []
  rw [List.append_nil] at hpre
  have hb := h.isCharBoundary
  have hs := h.spoken
  have hl := h.within
  generalize keptText stripWord text = kept at hpre ⊢
  obtain ⟨rest, rfl⟩ := hpre
  have hlen : spoken.length = gate.released := by
    rw [hs, List.length_take, min_eq_left hl]
  refine ⟨if rest = [] then none else some rest, ?_, ?_⟩
  · unfold SpeechGate.finish
    dsimp only
    rw [h.buf, ← hs, if_neg (by simp [hb]), if_neg (by simp), ← hlen, List.drop_left]
  · split_ifs with hr
    · simp [hr]
    · rfl

end Spoken

/-- What is released early is, whatever follows, the start of what the guard keeps, and with what
`finish` hands out it is all the guard keeps. -/
theorem speech_gate_never_cut (stripWord : Bytes → Option Bytes) (dfa : Automaton)
    (hdead : dfa.Sound stripWord) (kept : Bytes → Bytes)
    (hkept : ∀ text, kept text = keptText stripWord text) (deltas : List (Bytes × Nat)) :
    (∀ more, (SpeechGate.new.pushAll dfa deltas).1 <+:
      kept ((deltas.map Prod.fst).flatten ++ more)) ∧
    isCharBoundary (deltas.map Prod.fst).flatten (SpeechGate.new.pushAll dfa deltas).1.length = true ∧
    ∃ rest, ((SpeechGate.new.pushAll dfa deltas).2.finish
        (kept (deltas.map Prod.fst).flatten)).1 = .ok rest ∧
      (SpeechGate.new.pushAll dfa deltas).1 ++ rest.getD [] = kept (deltas.map Prod.fst).flatten := by
  obtain rfl : kept = keptText stripWord := funext hkept
  have h := (Spoken.new).pushAll hdead deltas
  rw [List.nil_append, List.nil_append] at h
  refine ⟨h.prefix_kept, ?_, h.finish⟩
  have hlen := congrArg List.length h.spoken
  rw [List.length_take, min_eq_left h.within] at hlen
  rw [hlen]
  exact h.isCharBoundary

/-! A comparison sign that could have become a marker until the blank after it. -/

def asciiWord : Bytes → Option Bytes
  | b :: rest =>
    if (48 ≤ b && b ≤ 57) || (65 ≤ b && b ≤ 90) || b = 95 || (97 ≤ b && b ≤ 122) then some rest
    else none
  | [] => none

/-- Remembers what it was fed, and gives up on `<` before a blank. -/
def lessThan : Automaton where
  State := Bytes
  start := some []
  next state byte := some (state ++ [byte])
  isMatch := marker asciiWord
  isDead state := (ascii "< ").isPrefixOf state
  isQuit state := state.any (128 ≤ ·)

private theorem lessThan_feed {fed : Bytes} : ∀ {state last : Bytes},
    lessThan.feed state fed = some last → last = state ++ fed := by
  induction fed with
  | nil =>
    intro state last h
    rw [← Option.some.inj h, List.append_nil]
  | cons byte fed ih =>
    intro state last h
    obtain ⟨state', hnext, h⟩ := Automaton.feed_cons h
    obtain rfl : state ++ [byte] = state' := Option.some.inj hnext
    rw [ih h, List.append_assoc, List.singleton_append]

theorem lessThan_sound : lessThan.Sound asciiWord := by
  intro start state fed hstart _ hfeed hdead more
  obtain rfl : [] = start := Option.some.inj hstart
  obtain rfl : state = fed := lessThan_feed hfeed
  obtain ⟨rest, rfl⟩ : ascii "< " <+: state := List.isPrefixOf_iff_prefix.mp hdead
  have hnone : ∀ (n : Nat) (tail : Bytes),
      wordsFrom asciiWord n (List.take n (32 :: tail)) = true → n = 0
    | 0, _, _ => rfl
    | n + 1, _, h => nomatch h
  simp [marker, turnMarkers, spans, ascii, List.isPrefixOf]
  intro n _ hn hw
  exact absurd (hnone n _ hw) (by omega)

private def sampleDeltas : List (Bytes × Nat) :=
  [(ascii "We know that it is true. 1 <", 0), ([], 250000000), (ascii " 2, too.", 260000000)]

theorem speech_gate_never_cut_sample :
    (SpeechGate.new.pushAll lessThan sampleDeltas).1 = ascii "We know that it is true. 1 < 2," ∧
    (∀ more, (SpeechGate.new.pushAll lessThan sampleDeltas).1 <+:
      keptText asciiWord ((sampleDeltas.map Prod.fst).flatten ++ more)) ∧
    ∃ rest, ((SpeechGate.new.pushAll lessThan sampleDeltas).2.finish
        (keptText asciiWord (sampleDeltas.map Prod.fst).flatten)).1 = .ok rest ∧
      (SpeechGate.new.pushAll lessThan sampleDeltas).1 ++ rest.getD [] =
        keptText asciiWord (sampleDeltas.map Prod.fst).flatten := by
  obtain ⟨hpre, _, hfin⟩ :=
    speech_gate_never_cut asciiWord lessThan lessThan_sound _ (fun _ => rfl) sampleDeltas
  exact ⟨by decide +kernel, hpre, hfin⟩

end PulseNull.Speech
