import PulseNull.Oneself.Anchor
import PulseNull.Oneself.Encode
import PulseNull.Text.Words

/-! The text of an anchor. A published line is read back as it was, and the history of
`anchors.log` is what was published as long as the file stays within what the reader takes. -/
namespace PulseNull.Oneself
open Text (ascii newline Complete IsWord IsInk splitWhitespace)

/-! Lines. -/

def lineInvalid : AnchorError := .failed (ascii "anchor line is not valid")

/-- `str::parse::<u64>`. -/
def parseSeq (text : Bytes) : Option U64 :=
  let digits := if text.head? = some 43 then text.tail else text
  if digits ≠ [] ∧ digits.all Text.isDigit then
    if h : Text.digitsValue digits < 2 ^ 64 then some ⟨Text.digitsValue digits, h⟩ else none
  else none

def hexLen (text : Bytes) (len : Nat) : Bool := text.length = len && text.all Text.isLowerHex

def parseLine (line : Bytes) : Except AnchorError AnchorLine :=
  match splitWhitespace line with
  | [version, pulse, ledgerId, seq, head, ts] =>
    if version ≠ ascii "v1" then .error lineInvalid
    else match parseSeq seq with
      | none => .error lineInvalid
      | some seq =>
        if hexLen ledgerId 16 && hexLen head 64 then .ok ⟨pulse, ledgerId, seq, head, ts⟩
        else .error lineInvalid
  | _ => .error lineInvalid

def parseHistory (text : Bytes) : Except AnchorError (List AnchorLine) :=
  (((Text.lines (completePrefix text)).map Text.Line.content).filter (· ≠ [])).mapM parseLine

/-! `anchors.log`. -/

def historyCap : Nat := 2 * 1024 * 1024

def tooLarge : AnchorError := .failed (ascii "anchor response is over 2 MiB")

def localFailed (reason : Bytes) : AnchorError := .failed (ascii "local anchor: " ++ reason)

def partialTail : Bytes :=
  ascii "anchors.log ends without a newline; add the newline or remove the partial line, then run anchor again"

/-- The file is read, or is `none`. -/
def readHistory : Option Bytes → Except AnchorError (List AnchorLine)
  | none => .ok []
  | some text =>
    if historyCap < text.length then .error tooLarge
    else if Text.utf8Valid text = false then
      .error (localFailed (ascii "anchors.log could not be read"))
    else if text ≠ [] ∧ text.getLast? ≠ some newline then .error (localFailed partialTail)
    else parseHistory text

/-- The file after one more line. -/
def appendLine (file : Option Bytes) (text : Bytes) : Except AnchorError Bytes :=
  let bytes := file.getD []
  if bytes ≠ [] ∧ bytes.getLast? ≠ some newline then .error (localFailed partialTail)
  else .ok (bytes ++ (text ++ [newline]))

/-- Publishes in turn, each of which returned `Ok`. -/
def publishAll (file : Option Bytes) : List AnchorLine → Except AnchorError (Option Bytes)
  | [] => .ok file
  | line :: rest => do
    let bytes ← appendLine file (formatLine line)
    publishAll (some bytes) rest

/-! What `tip_line` publishes. -/

/-- A line over a verified row. -/
structure AnchorLine.Recorded (line : AnchorLine) : Prop where
  pulse : isPlainPulseName line.pulse = true
  ledgerId : hexLen line.ledgerId 16 = true
  head : hexLen line.head 64 = true
  ts : tsOk line.ts = true

/-- Every row of an index has a hash in hex and a timestamp. -/
structure ChainIndex.Sealed (index : ChainIndex) : Prop where
  rows : ∀ row ∈ index.rows, hexLen row.hash 64 = true ∧ tsOk row.ts = true
  genesisHash : ∀ hash ∈ index.genesisHash, hexLen hash 64 = true

variable {env : Env}

private theorem sealed_accept {w : Walk} {a : Accepted} (hw : w.index.Sealed)
    (hhash : hexLen a.hash 64 = true) (hts : tsOk a.ts = true) (keep : Bool) :
    (w.accept keep a).index.Sealed := by
  cases keep with
  | false => exact ⟨hw.rows, hw.genesisHash⟩
  | true =>
    refine ⟨fun row hrow => ?_, fun hash hm => ?_⟩
    · have hrow : row ∈ w.index.rows ++ [⟨a.seq, a.hash, a.ts⟩] := by
        revert hrow
        simp only [Walk.accept, ChainIndex.keepRow, if_true]
        split <;> exact id
      rcases List.mem_append.mp hrow with hrow | hrow
      · exact hw.rows row hrow
      · rw [List.mem_singleton.mp hrow]
        exact ⟨hhash, hts⟩
    · have hm : hash = a.hash ∨ hash ∈ w.index.genesisHash := by
        revert hm
        simp only [Walk.accept, ChainIndex.keepRow, if_true]
        split
        · exact fun h => .inl (Option.some.inj h).symm
        · exact .inr
      rcases hm with rfl | hm
      · exact hhash
      · exact hw.genesisHash hash hm

private theorem sealed_walkLines {keep : Bool} : ∀ (n : Nat) {lines : List Phys},
    lines.length ≤ n → ∀ {w : Walk} {rows : List Accepted}, w.At rows → w.index.Sealed →
      (env.walkLines keep w lines).Sealed
  | _, [], _, w, _, _, hs => hs
  | n + 1, line :: rest, hn, w, rows, hw, hs => by
    have checked {bytes prev : Bytes} {seq : U64} {a : Accepted}
        (hc : env.checkRow bytes seq prev = .ok a) :
        hexLen a.hash 64 = true ∧ tsOk a.ts = true := by
      obtain ⟨row, event, hr, rfl⟩ := checkRow_eq_ok.mp hc
      exact ⟨sha256Hex_digestOk env bytes, hr.clock⟩
    cases hv : env.verdict w line rest.head? with
    | broken reason =>
      rw [walkLines_broken hv]
      exact ⟨hs.rows, hs.genesisHash⟩
    | row a =>
      obtain ⟨seq, _, _, _, hc, _⟩ := (verdict_row hw).mp hv
      rw [walkLines_row hv]
      exact sealed_walkLines n (by simpa using hn) (hw.accept keep a)
        (sealed_accept hs (checked hc).1 (checked hc).2 keep)
    | recovered a =>
      obtain ⟨seq, next, _, hnext, _, _, _, _, hc, _⟩ := (verdict_recovered hw).mp hv
      obtain ⟨rest, rfl⟩ : ∃ rest', rest = next :: rest' := by
        cases rest <;> simp_all
      rw [walkLines_recovered hv]
      simp only [List.length_cons] at hn
      have hwarn : (w.warn line.number .tornLine).index.Sealed := ⟨hs.rows, hs.genesisHash⟩
      exact sealed_walkLines n (by omega) ((hw.warn line.number .tornLine).accept keep a)
        (sealed_accept hwarn (checked hc).1 (checked hc).2 keep)

theorem indexBytes_sealed (env : Env) (buf : Bytes) : (env.indexBytes buf).Sealed := by
  have start : Walk.start.index.Sealed := ⟨fun row h => (nomatch h), fun hash h => (nomatch h)⟩
  unfold Env.indexBytes Env.walk
  split_ifs
  · exact ⟨start.rows, start.genesisHash⟩
  · exact sealed_walkLines _ le_rfl Walk.start_at start

/-- The line an anchor publishes is over a verified row. -/
theorem tipLine_recorded {buf : Bytes} {line : AnchorLine}
    (h : tipLine (env.indexBytes buf) = some line) : line.Recorded := by
  have hs := indexBytes_sealed env buf
  simp only [tipLine, ChainIndex.ledgerId, Option.bind_eq_bind, Option.bind_eq_some_iff,
    Option.map_eq_some_iff] at h
  obtain ⟨_, ⟨hash, hhash, rfl⟩, row, hrow, pulse, -, h⟩ := h
  split_ifs at h with hplain
  obtain rfl := Option.some.inj h
  obtain ⟨hhead, hts⟩ := hs.rows row (List.mem_of_getLast? hrow)
  refine ⟨hplain, ?_, hhead, hts⟩
  obtain ⟨hgenesis, hlen⟩ := Option.filter_eq_some_iff.mp hhash
  have hhex := hs.genesisHash hash (Option.mem_def.mpr hgenesis)
  simp only [hexLen, Bool.and_eq_true, decide_eq_true_eq, List.all_eq_true] at hhex hlen ⊢
  exact ⟨by rw [List.length_take]; omega, fun c hc => hhex.2 c (List.mem_of_mem_take hc)⟩

/-! A published line is read back. -/

private theorem ink_of_range {b : UInt8} (hl : 33 ≤ b) (hr : b < 128) : IsInk b := by
  have h1 : (33 : UInt8).toNat = 33 := rfl
  have h2 : (13 : UInt8).toNat = 13 := rfl
  have h3 : (32 : UInt8).toNat = 32 := rfl
  refine ⟨hr, ?_⟩
  rintro (⟨-, h⟩ | rfl)
  · rw [UInt8.le_iff_toNat_le] at h hl
    omega
  · rw [UInt8.le_iff_toNat_le] at hl
    omega

private theorem digits_ink {ds : Bytes} (h : ∀ c ∈ ds, Text.isDigit c = true) : ∀ c ∈ ds, IsInk c :=
  fun c hc => ink_of_range
    (UInt8.le_iff_toNat_le.mpr (Nat.le_trans (by decide) ((Text.isDigit_iff c).mp (h c hc)).1))
    (Text.isDigit_lt (h c hc))

theorem decimal_word (n : Nat) : IsWord (Text.decimal n) :=
  ⟨Text.decimal_ne_nil n, digits_ink (Text.decimal_digits n)⟩

theorem hexLen_word {text : Bytes} {len : Nat} (h : hexLen text len = true) (hpos : 0 < len) :
    IsWord text := by
  simp only [hexLen, Bool.and_eq_true, decide_eq_true_eq, List.all_eq_true] at h
  refine ⟨List.length_pos_iff.mp (by omega), fun c hc => ink_of_range ?_ (Text.isLowerHex_lt (h.2 c hc))⟩
  exact UInt8.le_trans (by decide) (Text.isLowerHex_ge (h.2 c hc))

theorem tsOk_word {ts : Bytes} (h : tsOk ts = true) : IsWord ts := by
  have hl := tsOk_length h
  exact ⟨List.length_pos_iff.mp (by omega), fun c hc =>
    ink_of_range (UInt8.le_trans (by decide) (tsOk_range h c hc).1) (tsOk_range h c hc).2⟩

theorem plainPulse_word {name : Bytes} (h : isPlainPulseName name = true) : IsWord name := by
  simp only [isPlainPulseName, Bool.and_eq_true, decide_eq_true_eq, List.all_eq_true,
    Bool.or_eq_true] at h
  refine ⟨h.1.1, fun c hc => ?_⟩
  rcases h.2 c hc with (((hd | ⟨hl, hr⟩) | ⟨hl, hr⟩) | rfl) | rfl
  · exact @digits_ink [c] (by simpa using hd) c (by simp)
  · exact ink_of_range (UInt8.le_trans (by decide) hl) (UInt8.lt_of_le_of_lt hr (by decide))
  · exact ink_of_range (UInt8.le_trans (by decide) hl) (UInt8.lt_of_le_of_lt hr (by decide))
  · exact ink_of_range (by decide) (by decide)
  · exact ink_of_range (by decide) (by decide)

theorem parseSeq_decimal (n : U64) : parseSeq (Text.decimal n.val) = some n := by
  have hhead : (Text.decimal n.val).head? ≠ some 43 := by
    intro h
    obtain ⟨rest, hrest⟩ := List.head?_eq_some_iff.mp h
    exact absurd (Text.decimal_digits n.val 43 (by simp [hrest])) (by decide)
  have hdigits : (Text.decimal n.val).all Text.isDigit = true :=
    List.all_eq_true.mpr (Text.decimal_digits n.val)
  simp only [parseSeq, if_neg hhead, Text.digitsValue_decimal]
  rw [if_pos ⟨Text.decimal_ne_nil n.val, hdigits⟩, dif_pos n.isLt]

theorem formatLine_words {line : AnchorLine} (h : line.Recorded) :
    splitWhitespace (formatLine line) =
      [ascii "v1", line.pulse, line.ledgerId, Text.decimal line.seq.val, line.head, line.ts] := by
  have hv : IsWord (ascii "v1") := ⟨by decide, by
    intro b hb
    rcases List.mem_cons.mp hb with rfl | hb
    · exact ink_of_range (by decide) (by decide)
    · rw [List.mem_singleton.mp hb]
      exact ink_of_range (by decide) (by decide)⟩
  have htext : formatLine line = ascii "v1" ++ 32 :: (line.pulse ++ 32 :: (line.ledgerId ++
      32 :: (Text.decimal line.seq.val ++ 32 :: (line.head ++ 32 :: line.ts)))) := by
    have hpre : ascii "v1 " = ascii "v1" ++ [32] := rfl
    have hsep : ascii " " = [32] := rfl
    simp only [formatLine, hpre, hsep, List.append_assoc, List.cons_append, List.nil_append]
  rw [htext, hv.splitWhitespace_cons, (plainPulse_word h.pulse).splitWhitespace_cons,
    (hexLen_word h.ledgerId (by decide)).splitWhitespace_cons,
    (decimal_word _).splitWhitespace_cons, (hexLen_word h.head (by decide)).splitWhitespace_cons,
    (tsOk_word h.ts).splitWhitespace]

theorem parseLine_formatLine {line : AnchorLine} (h : line.Recorded) :
    parseLine (formatLine line) = .ok line := by
  simp only [parseLine, formatLine_words h, ne_eq, not_true_eq_false, if_false, parseSeq_decimal,
    h.ledgerId, h.head, Bool.and_self, if_true]

/-- Every byte of a published line is ASCII and none ends a line. -/
theorem formatLine_bytes {line : AnchorLine} (h : line.Recorded) :
    ∀ c ∈ formatLine line, c < 128 ∧ c ≠ newline ∧ c ≠ 13 := by
  have ink {w : Bytes} (hw : IsWord w) : ∀ c ∈ w, c < 128 ∧ c ≠ newline ∧ c ≠ 13 := by
    intro c hc
    obtain ⟨hlt, hblank⟩ := hw.2 c hc
    refine ⟨hlt, ?_, ?_⟩
    · rintro rfl
      exact hblank (.inl (by decide))
    · rintro rfl
      exact hblank (.inl (by decide))
  have hpre : ∀ c ∈ ascii "v1 ", c < 128 ∧ c ≠ newline ∧ c ≠ 13 := by
    rw [show ascii "v1 " = [118, 49, 32] from rfl]
    simp only [List.forall_mem_cons]
    exact ⟨by decide, by decide, by decide, fun c hc => nomatch hc⟩
  have hsep : ∀ c ∈ ascii " ", c < 128 ∧ c ≠ newline ∧ c ≠ 13 := by
    rw [show ascii " " = [32] from rfl, List.forall_mem_singleton]
    decide
  simp only [formatLine, List.forall_mem_append]
  exact ⟨⟨⟨⟨⟨⟨⟨⟨⟨hpre, ink (plainPulse_word h.pulse)⟩, hsep⟩,
    ink (hexLen_word h.ledgerId (by decide))⟩, hsep⟩, ink (decimal_word _)⟩, hsep⟩,
    ink (hexLen_word h.head (by decide))⟩, hsep⟩, ink (tsOk_word h.ts)⟩

/-! Histories. -/

theorem parseHistory_nil : parseHistory [] = .ok [] := rfl

/-- Complete lines are read one after the other. -/
theorem parseHistory_append {a : Bytes} (ha : Complete a) {old : List AnchorLine}
    (h : parseHistory a = .ok old) {b : Bytes} (hb : Complete b) :
    parseHistory (a ++ b) = (parseHistory b).map (old ++ ·) := by
  have whole {buf : Bytes} (hbuf : Complete buf) : completePrefix buf = buf := by
    have := completePrefix_eq hbuf (List.not_mem_nil (a := newline))
    rwa [List.append_nil] at this
  rw [parseHistory, whole ha] at h
  rw [parseHistory, whole (ha.append hb), Text.lines_append ha, List.map_append, List.filter_append,
    List.mapM_append, h, parseHistory, whole hb]
  rfl

theorem parseHistory_formatLine {line : AnchorLine} (h : line.Recorded) :
    parseHistory (formatLine line ++ [newline]) = .ok [line] := by
  have hbytes := formatLine_bytes h
  have hne : formatLine line ≠ [] := by simp [formatLine, ascii]
  have hlines := Text.lines_line (fun hm => (hbytes _ hm).2.1 rfl) ([] : Bytes)
  have hcontent : (⟨formatLine line, true⟩ : Text.Line).content = formatLine line := by
    refine if_neg fun hc => ?_
    simp only [Bool.true_and, decide_eq_true_eq] at hc
    exact (hbytes 13 (List.mem_of_getLast? hc)).2.2 rfl
  have hwhole : completePrefix (formatLine line ++ [newline]) = formatLine line ++ [newline] := by
    have := completePrefix_eq (Text.complete_line (formatLine line)) (List.not_mem_nil (a := newline))
    rwa [List.append_nil] at this
  rw [parseHistory, hwhole, hlines, Text.lines_nil, List.map_singleton, hcontent,
    List.filter_cons_of_pos (by simpa using hne), List.filter_nil, List.mapM_cons,
    parseLine_formatLine h]
  rfl

/-- `text` reads back as `lines`, and could be read at all but for its length. -/
structure Readable (text : Bytes) (lines : List AnchorLine) : Prop where
  utf8 : Text.utf8Valid text = true
  complete : Complete text
  parsed : parseHistory text = .ok lines

private theorem complete_iff {text : Bytes} :
    Complete text ↔ ¬(text ≠ [] ∧ text.getLast? ≠ some newline) := by
  constructor
  · rintro (rfl | ⟨init, rfl⟩)
    · simp
    · simp
  · intro h
    rcases List.eq_nil_or_concat text with rfl | ⟨init, c, rfl⟩
    · exact Text.complete_nil
    · refine .inr ⟨init, ?_⟩
      simpa using h

theorem readHistory_eq_ok {text : Bytes} {lines : List AnchorLine} :
    readHistory (some text) = .ok lines ↔ text.length ≤ historyCap ∧ Readable text lines := by
  rw [readHistory]
  split_ifs with hlen hutf htail
  · exact ⟨fun h => (nomatch h), fun h => absurd h.1 (Nat.not_le.mpr hlen)⟩
  · exact ⟨fun h => (nomatch h), fun h => absurd h.2.utf8 (by simp [hutf])⟩
  · exact ⟨fun h => (nomatch h), fun h => absurd htail (complete_iff.mp h.2.complete)⟩
  · exact ⟨fun h => ⟨Nat.not_lt.mp hlen, by simpa using hutf, complete_iff.mpr htail, h⟩,
      fun h => h.2.parsed⟩

theorem Readable.append {text : Bytes} {old : List AnchorLine} (h : Readable text old)
    {line : AnchorLine} (hl : line.Recorded) :
    Readable (text ++ (formatLine line ++ [newline])) (old ++ [line]) := by
  have hascii : ∀ c ∈ formatLine line ++ [newline], c < 128 :=
    List.forall_mem_append.mpr ⟨fun c hc => (formatLine_bytes hl c hc).1,
      List.forall_mem_singleton.mpr (by decide)⟩
  refine ⟨Text.utf8Valid_append h.utf8 (Text.utf8Valid_ascii hascii),
    h.complete.append (Text.complete_line _), ?_⟩
  rw [parseHistory_append h.complete h.parsed (Text.complete_line _), parseHistory_formatLine hl]
  rfl

theorem appendLine_readable {file : Option Bytes} {old : List AnchorLine}
    (h : Readable (file.getD []) old) (text : Bytes) :
    appendLine file text = .ok (file.getD [] ++ (text ++ [newline])) :=
  if_neg (complete_iff.mp h.complete)

/-- What a line takes in the file. -/
def AnchorLine.size (line : AnchorLine) : Nat := (formatLine line).length + 1

/-- Every publish onto a readable file is accepted, whatever its length, and the file reads back
but for it. -/
theorem publishAll_readable {lines : List AnchorLine} (hl : ∀ line ∈ lines, line.Recorded) :
    ∀ {file : Option Bytes} {old : List AnchorLine}, Readable (file.getD []) old →
      ∃ after, publishAll file lines = .ok after ∧ Readable (after.getD []) (old ++ lines) ∧
        (after.getD []).length = (file.getD []).length + (lines.map AnchorLine.size).sum ∧
        (after = none → file = none ∧ lines = []) := by
  induction lines with
  | nil =>
    intro file old h
    exact ⟨file, rfl, by simpa using h, by simp, fun hn => ⟨hn, rfl⟩⟩
  | cons line rest ih =>
    intro file old h
    have hnext := h.append (hl line (by simp))
    obtain ⟨after, hpub, hread, hlen, hnone⟩ :=
      @ih (fun x hx => hl x (by simp [hx])) (some (file.getD [] ++ (formatLine line ++ [newline])))
        _ hnext
    refine ⟨after, ?_, by simpa using hread, ?_, fun hn => nomatch (hnone hn).1⟩
    · rw [publishAll, appendLine_readable h]
      exact hpub
    · rw [hlen, Option.getD_some, List.map_cons, List.sum_cons]
      simp only [List.length_append, List.length_singleton, AnchorLine.size]
      omega

theorem readHistory_readable {file : Option Bytes} {old : List AnchorLine}
    (h : readHistory file = .ok old) : Readable (file.getD []) old := by
  cases file with
  | none =>
    obtain rfl := Except.ok.inj h
    exact ⟨rfl, Text.complete_nil, rfl⟩
  | some text => exact (readHistory_eq_ok.mp h).2

/-- The history after a run of publishes is what was there and what was published exactly when the
file is still within the cap of its reader. -/
theorem published_history_iff {file : Option Bytes} {old lines : List AnchorLine}
    {after : Option Bytes} (hold : readHistory file = .ok old)
    (hl : ∀ line ∈ lines, line.Recorded) (hpub : publishAll file lines = .ok after) :
    readHistory after = .ok (old ++ lines) ↔
      (file.getD []).length + (lines.map AnchorLine.size).sum ≤ historyCap := by
  obtain ⟨after', hpub', hread, hlen, hnone⟩ := publishAll_readable hl (readHistory_readable hold)
  obtain rfl := Except.ok.inj (hpub.symm.trans hpub')
  rw [← hlen]
  cases after with
  | none =>
    obtain ⟨rfl, rfl⟩ := hnone rfl
    obtain rfl := Except.ok.inj hold
    exact ⟨fun _ => by simp, fun _ => rfl⟩
  | some text => exact readHistory_eq_ok.trans ⟨fun h => h.1, fun h => ⟨h, hread⟩⟩

/-- The tip of a pulse named `p`. -/
def sampleTip : AnchorLine :=
  ⟨ascii "p", List.replicate 16 97, 0, List.replicate 64 97, ascii "2026-01-02T03:04:05.006Z"⟩

theorem sampleTip_recorded : sampleTip.Recorded := ⟨rfl, rfl, rfl, by decide⟩

theorem published_history_iff_sample :
    readHistory (some (formatLine sampleTip ++ [newline])) = .ok ([] ++ [sampleTip]) ↔
      (none.getD [] : Bytes).length + ([sampleTip].map AnchorLine.size).sum ≤ historyCap :=
  published_history_iff rfl (List.forall_mem_singleton.mpr sampleTip_recorded) (by
    rw [publishAll, @appendLine_readable none [] ⟨rfl, Text.complete_nil, rfl⟩]
    rfl)

/-- Twenty thousand publishes return `Ok`, and the history does not. -/
theorem published_history_lost : ¬∀ (file : Option Bytes) (old lines : List AnchorLine)
    (after : Option Bytes), readHistory file = .ok old → (∀ line ∈ lines, line.Recorded) →
      publishAll file lines = .ok after → readHistory after = .ok (old ++ lines) := by
  intro h
  obtain ⟨n, hn⟩ : ∃ n, historyCap < n * 114 := ⟨20000, by decide⟩
  have hl : ∀ line ∈ List.replicate n sampleTip, line.Recorded :=
    fun line hm => List.eq_of_mem_replicate hm ▸ sampleTip_recorded
  obtain ⟨after, hpub, hread, hlen, hnone⟩ :=
    @publishAll_readable _ hl none [] ⟨rfl, Text.complete_nil, rfl⟩
  have hok := h none [] _ after rfl hl hpub
  have hsize : sampleTip.size = 114 := rfl
  rw [List.map_replicate, List.sum_replicate, hsize] at hlen
  simp only [Option.getD_none, List.length_nil, smul_eq_mul, Nat.zero_add] at hlen
  cases after with
  | none =>
    rw [Option.getD_none, List.length_nil] at hlen
    omega
  | some text =>
    have hcap := (readHistory_eq_ok.mp hok).1
    rw [Option.getD_some] at hlen
    omega

end PulseNull.Oneself
