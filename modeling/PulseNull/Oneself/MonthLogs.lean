import PulseNull.Oneself.AnchorLog
import PulseNull.Keyed

/-! The GitHub anchor. The lines of a pulse lie in one file a month, `<YYYY>-<MM>.log`, and its
history is the files in the order of their names. -/
namespace PulseNull.Oneself
open Text (ascii newline Complete)

def monthCap : Nat := 800 * 1024

def maxBody : Nat := 2 * 1024 * 1024

def rotate : AnchorError :=
  .failed (ascii "anchor file would pass 819200 bytes (800 KiB); rotate the month file")

def status (code : Nat) : AnchorError :=
  .failed (ascii "github anchor: HTTP " ++ Text.decimal code)

def transport : AnchorError := .failed (ascii "github anchor failed")

def badBody : AnchorError := .failed (ascii "github anchor: response is not usable")

/-! The text of one file. -/

/-- Lines from a GitHub file. A last line with no newline is kept when it parses. -/
def remoteLines (text : Bytes) : Except AnchorError (List AnchorLine) :=
  if text = [] ∨ text.getLast? = some newline then parseHistory text
  else do
    let head := completePrefix text
    let tail := text.drop head.length
    let lines ← parseHistory head
    if tail = [] then return lines
    else return lines ++ [← parseLine tail]

def appendText (previous : Option Bytes) (line : AnchorLine) : Except AnchorError Bytes :=
  match previous.filter (· ≠ []) with
  | some previous =>
    if previous.getLast? = some newline then .ok (previous ++ (formatLine line ++ [newline]))
    else do
      let _ ← remoteLines previous
      return previous ++ newline :: (formatLine line ++ [newline])
  | none => .ok (formatLine line ++ [newline])

/-! The files of one pulse. -/

/-- The directory of a pulse as the service has it. It lists the files in an order of its own. -/
structure Dir where
  text : Bytes → Option Bytes
  listing : List Bytes
  listed : ∀ name, name ∈ listing ↔ (text name).isSome

/-- The file has been written. -/
def Dir.put (dir : Dir) (name text : Bytes) : Dir where
  text := Function.update dir.text name (some text)
  listing := name :: dir.listing
  listed other := by
    rcases eq_or_ne other name with rfl | hne
    · simp
    · simp [hne, dir.listed other]

theorem Dir.put_text_self (dir : Dir) (name text : Bytes) : (dir.put name text).text name = some text :=
  Function.update_self ..

theorem Dir.put_text_of_ne (dir : Dir) {name other : Bytes} (h : other ≠ name) (text : Bytes) :
    (dir.put name text).text other = dir.text other := Function.update_of_ne h ..

def monthLog (name : Bytes) : Bool :=
  name.length = 11 && name[4]? = some 45 && name[7]? = some 46 && name.drop 8 = ascii "log" &&
    (name.take 4).all Text.isDigit && ((name.drop 5).take 2).all Text.isDigit

/-- `sort` and `dedup` of the listed names. -/
def Dir.listMonths (dir : Dir) : List Bytes :=
  ((dir.listing.filter monthLog).mergeSort (· ≤ ·)).destutter (· ≠ ·)

def Dir.getFile (dir : Dir) (name : Bytes) : Except AnchorError (Option Bytes) :=
  match dir.text name with
  | none => .ok none
  | some text =>
    if maxBody < text.length then .error tooLarge
    else if Text.utf8Valid text = false then .error badBody
    else .ok (some text)

def Dir.monthLines (dir : Dir) (name : Bytes) : Except AnchorError (List AnchorLine) := do
  match ← dir.getFile name with
  | some text => remoteLines text
  | none => .error (status 404)

def Dir.history (dir : Dir) : Except AnchorError (List AnchorLine) := do
  return (← dir.listMonths.mapM dir.monthLines).flatten

/-! Publishing. -/

/-- What the service answers to a write. -/
inductive PutAnswer where
  | written
  | refused (code : Nat)

/-- What `publish_path` is about to write. -/
def Dir.nextText (dir : Dir) (name : Bytes) (line : AnchorLine) : Except AnchorError Bytes := do
  let text ← appendText (← dir.getFile name) line
  if monthCap < text.length then .error rotate else return text

/-- The answers come one by one. A first conflict is tried again. -/
def Dir.publishPath (dir : Dir) (name : Bytes) (line : AnchorLine) :
    Bool → List PutAnswer → Except AnchorError Dir
  | _, [] => do
    let _ ← dir.nextText name line
    .error transport
  | retried, answer :: rest => do
    let text ← dir.nextText name line
    match answer with
    | .written => return dir.put name text
    | .refused code =>
      if code = 409 ∧ retried = false then dir.publishPath name line true rest
      else .error (status code)

/-- A month of the UTC clock. -/
structure Month where
  year : Nat
  month : Nat
  deriving DecidableEq

def pad (width n : Nat) : Bytes :=
  List.replicate (width - (Text.decimal n).length) 48 ++ Text.decimal n

def Month.fileName (m : Month) : Bytes :=
  pad 4 m.year ++ ascii "-" ++ pad 2 m.month ++ ascii ".log"

/-- The directories, by pulse. -/
abbrev Remote := Bytes → Dir

def Remote.history (remote : Remote) (pulse : Bytes) : Except AnchorError (List AnchorLine) :=
  if isPlainPulseName pulse then (remote pulse).history else .error (.config (ascii "pulse"))

structure Publication where
  line : AnchorLine
  now : Month
  answers : List PutAnswer

def Remote.publish (remote : Remote) (p : Publication) : Except AnchorError Remote :=
  if isPlainPulseName p.line.pulse then do
    let dir ← (remote p.line.pulse).publishPath p.now.fileName p.line false p.answers
    return Function.update remote p.line.pulse dir
  else .error (.config (ascii "pulse"))

def Remote.publishAll (remote : Remote) : List Publication → Except AnchorError Remote
  | [] => .ok remote
  | p :: rest => do (← remote.publish p).publishAll rest

/-! The text of one file reads back. -/

theorem remoteLines_complete {text : Bytes} (h : Complete text) :
    remoteLines text = parseHistory text := by
  refine if_pos ?_
  rcases h with rfl | ⟨init, rfl⟩
  · exact .inl rfl
  · exact .inr (by simp)

theorem remoteLines_torn {head tail : Bytes} (hh : Complete head) (ht : newline ∉ tail)
    (hne : tail ≠ []) : remoteLines (head ++ tail) = (do
      let lines ← parseHistory head
      return lines ++ [← parseLine tail]) := by
  have hlast : ¬(head ++ tail = [] ∨ (head ++ tail).getLast? = some newline) := by
    rintro (h | h)
    · exact hne (List.append_eq_nil_iff.mp h).2
    · rw [List.getLast?_append_of_ne_nil _ hne] at h
      exact ht (List.mem_of_getLast? h)
  rw [remoteLines, if_neg hlast, completePrefix_eq hh ht]
  simp only [List.drop_left, if_neg hne]

/-- A line whose newline has been added is the line it was, a carriage return before it included. -/
theorem parseHistory_closed {tail : Bytes} (ht : newline ∉ tail) {line : AnchorLine}
    (h : parseLine tail = .ok line) : parseHistory (tail ++ [newline]) = .ok [line] := by
  have hwhole : completePrefix (tail ++ [newline]) = tail ++ [newline] := by
    have := completePrefix_eq (Text.complete_line tail) (List.not_mem_nil (a := newline))
    rwa [List.append_nil] at this
  have hparse : parseLine (Text.Line.content ⟨tail, true⟩) = .ok line := by
    unfold Text.Line.content
    split
    · next hc =>
      simp only [Bool.true_and, decide_eq_true_eq] at hc
      obtain ⟨init, rfl⟩ := List.getLast?_eq_some_iff.mp hc
      rw [List.dropLast_concat]
      rwa [parseLine, Text.splitWhitespace_return] at h
    · exact h
  have hne : Text.Line.content ⟨tail, true⟩ ≠ [] := by
    intro hnil
    rw [hnil] at hparse
    cases hparse
  rw [parseHistory, hwhole, Text.lines_line ht, Text.lines_nil, List.map_singleton,
    List.filter_cons_of_pos (by simpa using hne), List.filter_nil, List.mapM_cons, hparse]
  rfl

/-- What a missing file or an empty one holds is nothing. -/
def previousLines (previous : Option Bytes) : Except AnchorError (List AnchorLine) :=
  previous.elim (.ok []) remoteLines

/-- One more line, after a last line with a newline or without. -/
theorem remoteLines_appendText {previous : Option Bytes} {old : List AnchorLine}
    (hold : previousLines previous = .ok old) {line : AnchorLine} (hl : line.Recorded) :
    ∃ text, appendText previous line = .ok text ∧ remoteLines text = .ok (old ++ [line]) := by
  have hadd := parseHistory_formatLine hl
  have hcomplete := Text.complete_line (formatLine line)
  have fresh : old = [] → remoteLines (formatLine line ++ [newline]) = .ok (old ++ [line]) := by
    rintro rfl
    rw [remoteLines_complete hcomplete, hadd]
    rfl
  rcases previous with _ | previous
  · exact ⟨_, rfl, fresh (Except.ok.inj hold).symm⟩
  · have hold : remoteLines previous = .ok old := hold
    by_cases hne : previous = []
    · subst hne
      exact ⟨_, rfl, fresh (Except.ok.inj hold).symm⟩
    · have hfilter : (some previous).filter (· ≠ []) = some previous := by simp [hne]
      by_cases hnl : previous.getLast? = some newline
      · have hc : Complete previous := by
          obtain ⟨init, rfl⟩ := List.getLast?_eq_some_iff.mp hnl
          exact Text.complete_snoc init
        rw [remoteLines_complete hc] at hold
        refine ⟨previous ++ (formatLine line ++ [newline]), ?_, ?_⟩
        · simp only [appendText, hfilter, if_pos hnl]
        · rw [remoteLines_complete (hc.append hcomplete), parseHistory_append hc hold hcomplete, hadd]
          rfl
      · obtain ⟨head, tail, hh, ht, rfl⟩ := Text.exists_tail previous
        have htail : tail ≠ [] := by
          rintro rfl
          rw [List.append_nil] at hne hnl
          rcases hh with rfl | ⟨init, rfl⟩
          · exact hne rfl
          · simp at hnl
        have hvalid := hold
        rw [remoteLines_torn hh ht htail] at hold
        cases hhead : parseHistory head with
        | error err => simp [hhead, bind, Except.bind] at hold
        | ok lines =>
          cases hlast : parseLine tail with
          | error err => simp [hhead, hlast, bind, Except.bind] at hold
          | ok last =>
            simp only [hhead, hlast, bind, Except.bind, pure, Except.pure, Except.ok.injEq] at hold
            have hclosed := Text.complete_line tail
            refine ⟨(head ++ tail) ++ newline :: (formatLine line ++ [newline]), ?_, ?_⟩
            · simp only [appendText, hfilter, if_neg hnl, hvalid, bind, Except.bind, pure, Except.pure]
            · have htext : (head ++ tail) ++ newline :: (formatLine line ++ [newline]) =
                  (head ++ (tail ++ [newline])) ++ (formatLine line ++ [newline]) := by simp
              have hboth : parseHistory (head ++ (tail ++ [newline])) = .ok old := by
                rw [parseHistory_append hh hhead hclosed, parseHistory_closed ht hlast, ← hold]
                rfl
              rw [htext, remoteLines_complete ((hh.append hclosed).append hcomplete),
                parseHistory_append (hh.append hclosed) hboth hcomplete, hadd]
              rfl

/-! Names in the order of their months. -/

/-- Year and month of a file, as one number. -/
def monthCode (name : Bytes) : Nat :=
  Text.digitsValue (name.take 4) * 100 + Text.digitsValue ((name.drop 5).take 2)

def Month.code (m : Month) : Nat := m.year * 100 + m.month

/-- A month of a year from 0 to 9999. -/
structure Month.Valid (m : Month) : Prop where
  year : m.year ≤ 9999
  low : 1 ≤ m.month
  high : m.month ≤ 12

private theorem digitsValue_cons (c : UInt8) (cs : Bytes) :
    Text.digitsValue (c :: cs) = (c.toNat - 48) * 10 ^ cs.length + Text.digitsValue cs := by
  have shift : ∀ (cs : Bytes) (acc : Nat), cs.foldl (fun acc c => 10 * acc + (c.toNat - 48)) acc =
      acc * 10 ^ cs.length + Text.digitsValue cs := by
    intro cs
    induction cs with
    | nil => simp [Text.digitsValue]
    | cons c cs ih =>
      intro acc
      rw [List.foldl_cons, ih, List.length_cons, show Text.digitsValue (c :: cs) =
        cs.foldl (fun acc c => 10 * acc + (c.toNat - 48)) (10 * 0 + (c.toNat - 48)) from rfl, ih]
      ring
  rw [Text.digitsValue, List.foldl_cons, shift]
  ring

private theorem digitsValue_lt {ds : Bytes} (h : ∀ c ∈ ds, Text.isDigit c = true) :
    Text.digitsValue ds < 10 ^ ds.length := by
  induction ds with
  | nil => simp [Text.digitsValue]
  | cons c cs ih =>
    have hc := (Text.isDigit_iff c).mp (h c (by simp))
    have ht := ih fun x hx => h x (by simp [hx])
    rw [digitsValue_cons, List.length_cons, pow_succ]
    have : (c.toNat - 48) * 10 ^ cs.length ≤ 9 * 10 ^ cs.length := Nat.mul_le_mul_right _ (by omega)
    omega

/-- Of two numerals of one length the lesser comes first, and the same number is written once. -/
private theorem digits_order {a b : Bytes} (hlen : a.length = b.length)
    (ha : ∀ c ∈ a, Text.isDigit c = true) (hb : ∀ c ∈ b, Text.isDigit c = true) :
    (Text.digitsValue a < Text.digitsValue b → ∀ s t, a ++ s < b ++ t) ∧
      (Text.digitsValue a = Text.digitsValue b → a = b) := by
  induction a generalizing b with
  | nil =>
    obtain rfl := List.length_eq_zero_iff.mp hlen.symm
    exact ⟨fun h => absurd h (lt_irrefl _), fun _ => rfl⟩
  | cons x a ih =>
    cases b with
    | nil => simp at hlen
    | cons y b =>
      have hlen : a.length = b.length := by simpa using hlen
      have hx := (Text.isDigit_iff x).mp (ha x (by simp))
      have hy := (Text.isDigit_iff y).mp (hb y (by simp))
      have ha' := @digitsValue_lt a fun c hc => ha c (by simp [hc])
      have hb' := @digitsValue_lt b fun c hc => hb c (by simp [hc])
      obtain ⟨hlt, heq⟩ := ih hlen (fun c hc => ha c (by simp [hc])) fun c hc => hb c (by simp [hc])
      rw [digitsValue_cons, digitsValue_cons, ← hlen]
      rw [← hlen] at hb'
      rcases Nat.lt_trichotomy x.toNat y.toNat with hxy | hxy | hxy
      · have : (x.toNat - 48 + 1) * 10 ^ a.length ≤ (y.toNat - 48) * 10 ^ a.length :=
          Nat.mul_le_mul_right _ (by omega)
        rw [Nat.add_mul, Nat.one_mul] at this
        refine ⟨fun _ s t => ?_, fun h => by omega⟩
        exact List.cons_lt_cons_iff.mpr (.inl (UInt8.lt_iff_toNat_lt.mpr hxy))
      · obtain rfl := UInt8.toNat_inj.mp hxy
        refine ⟨fun h s t => ?_, fun h => ?_⟩
        · exact List.cons_lt_cons_iff.mpr (.inr ⟨rfl, hlt (by omega) s t⟩)
        · rw [heq (by omega)]
      · have : (y.toNat - 48 + 1) * 10 ^ a.length ≤ (x.toNat - 48) * 10 ^ a.length :=
          Nat.mul_le_mul_right _ (by omega)
        rw [Nat.add_mul, Nat.one_mul] at this
        exact ⟨fun h => by omega, fun h => by omega⟩

/-- A month file's name in its parts. -/
private theorem monthLog_parts {name : Bytes} (h : monthLog name = true) : ∃ year month : Bytes,
    name = year ++ (45 :: (month ++ ascii ".log")) ∧ year.length = 4 ∧ month.length = 2 ∧
      (∀ c ∈ year, Text.isDigit c = true) ∧ ∀ c ∈ month, Text.isDigit c = true := by
  simp only [monthLog, Bool.and_eq_true, decide_eq_true_eq, List.all_eq_true] at h
  obtain ⟨⟨⟨⟨⟨hlen, h4⟩, h7⟩, h8⟩, hy⟩, hm⟩ := h
  have hdot : ascii ".log" = 46 :: ascii "log" := rfl
  refine ⟨name.take 4, (name.drop 5).take 2, ?_, by simp [hlen], by simp [hlen], hy, hm⟩
  rw [hdot, ← h8]
  conv_lhs => rw [← List.take_append_drop 4 name]
  congr 1
  obtain ⟨h4', h4⟩ := List.getElem?_eq_some_iff.mp h4
  obtain ⟨h7', h7⟩ := List.getElem?_eq_some_iff.mp h7
  rw [List.drop_eq_getElem_cons h4', h4]
  congr 1
  conv_lhs => rw [← List.take_append_drop 2 (name.drop (4 + 1))]
  congr 1
  rw [List.drop_drop, List.drop_eq_getElem_cons (by omega)]
  congr 1

private theorem monthCode_parts {year month : Bytes} (hy : year.length = 4) (hm : month.length = 2) :
    monthCode (year ++ (45 :: (month ++ ascii ".log"))) =
      Text.digitsValue year * 100 + Text.digitsValue month := by
  have h4 : (year ++ (45 :: (month ++ ascii ".log"))).take 4 = year := List.take_left' hy
  have h5 : (year ++ (45 :: (month ++ ascii ".log"))).drop 5 = month ++ ascii ".log" := by
    rw [List.drop_append, hy, List.drop_eq_nil_of_le (by omega)]
    rfl
  rw [monthCode, h4, h5, List.take_left' hm]

/-- Names of month files are in the order of their months. -/
theorem monthCode_le {a b : Bytes} (ha : monthLog a = true) (hb : monthLog b = true) (h : a ≤ b) :
    monthCode a ≤ monthCode b := by
  obtain ⟨ya, ma, rfl, hya, hma, hyad, hmad⟩ := monthLog_parts ha
  obtain ⟨yb, mb, rfl, hyb, hmb, hybd, hmbd⟩ := monthLog_parts hb
  rw [monthCode_parts hya hma, monthCode_parts hyb hmb]
  have hma' := digitsValue_lt hmad
  have hmb' := digitsValue_lt hmbd
  rw [hma] at hma'
  rw [hmb] at hmb'
  by_contra hlt
  refine h ?_
  rcases Nat.lt_trichotomy (Text.digitsValue yb) (Text.digitsValue ya) with hy | hy | hy
  · exact (digits_order (hyb.trans hya.symm) hybd hyad).1 hy _ _
  · obtain rfl := (digits_order (hyb.trans hya.symm) hybd hyad).2 hy
    have hm := (digits_order (hmb.trans hma.symm) hmbd hmad).1 (by omega) (ascii ".log") (ascii ".log")
    have hrest : 45 :: (mb ++ ascii ".log") < 45 :: (ma ++ ascii ".log") :=
      List.cons_lt_cons_iff.mpr (.inr ⟨rfl, hm⟩)
    exact List.append_left_lt hrest
  · omega

/-- A month file is known by its month. -/
theorem monthCode_inj {a b : Bytes} (ha : monthLog a = true) (hb : monthLog b = true)
    (h : monthCode a = monthCode b) : a = b := by
  obtain ⟨ya, ma, rfl, hya, hma, hyad, hmad⟩ := monthLog_parts ha
  obtain ⟨yb, mb, rfl, hyb, hmb, hybd, hmbd⟩ := monthLog_parts hb
  rw [monthCode_parts hya hma, monthCode_parts hyb hmb] at h
  have hma' := digitsValue_lt hmad
  have hmb' := digitsValue_lt hmbd
  rw [hma] at hma'
  rw [hmb] at hmb'
  rw [(digits_order (hya.trans hyb.symm) hyad hybd).2 (by omega),
    (digits_order (hma.trans hmb.symm) hmad hmbd).2 (by omega)]

private theorem pad_spec {width n : Nat} (hw : 0 < width) (hn : n < 10 ^ width) :
    (pad width n).length = width ∧ (∀ c ∈ pad width n, Text.isDigit c = true) ∧
      Text.digitsValue (pad width n) = n := by
  have hlen := Text.decimal_length_le hw hn
  refine ⟨by rw [pad, List.length_append, List.length_replicate]; omega, ?_, ?_⟩
  · rw [pad, List.forall_mem_append]
    refine ⟨fun c hc => ?_, Text.decimal_digits n⟩
    rw [List.eq_of_mem_replicate hc]
    rfl
  · have zeros : ∀ k ds, Text.digitsValue (List.replicate k 48 ++ ds) = Text.digitsValue ds := by
      intro k ds
      induction k with
      | zero => rfl
      | succ k ih =>
        rw [List.replicate_succ, List.cons_append, digitsValue_cons, ih]
        have h48 : (48 : UInt8).toNat - 48 = 0 := rfl
        rw [h48, Nat.zero_mul, Nat.zero_add]
    rw [pad, zeros, Text.digitsValue_decimal]

/-- The file a line goes to is a month file of its month. -/
theorem Month.Valid.fileName {m : Month} (h : m.Valid) :
    monthLog m.fileName = true ∧ monthCode m.fileName = m.code := by
  obtain ⟨hyl, hyd, hyv⟩ := @pad_spec 4 m.year (by decide) (by have := h.year; omega)
  obtain ⟨hml, hmd, hmv⟩ := @pad_spec 2 m.month (by decide) (by have := h.high; omega)
  have hname : m.fileName = pad 4 m.year ++ (45 :: (pad 2 m.month ++ ascii ".log")) := by
    have hdash : ascii "-" = [45] := rfl
    simp only [Month.fileName, hdash, List.append_assoc, List.cons_append, List.nil_append]
  refine ⟨?_, by rw [hname, monthCode_parts hyl hml, hyv, hmv]; rfl⟩
  have h5 : m.fileName.drop 5 = pad 2 m.month ++ ascii ".log" := by
    rw [hname, List.drop_append, hyl, List.drop_eq_nil_of_le (by omega)]
    rfl
  have h8 : m.fileName.drop 8 = ascii "log" := by
    rw [show 8 = 5 + 3 from rfl, ← List.drop_drop, h5, List.drop_append, hml,
      List.drop_eq_nil_of_le (by omega)]
    rfl
  have h4 : m.fileName[4]? = some 45 := by
    rw [hname, List.getElem?_append_right (by omega), hyl]
    rfl
  have h7 : m.fileName[7]? = some 46 := by
    have := @List.getElem?_drop _ m.fileName 5 2
    rw [h5, List.getElem?_append_right (by omega), hml] at this
    exact this.symm
  have hlen : m.fileName.length = 11 := by
    rw [hname]
    simp [hyl, hml, ascii]
  have htake : m.fileName.take 4 = pad 4 m.year := by
    rw [hname, List.take_left' hyl]
  simp only [monthLog, hlen, h4, h7, h8, htake, h5, List.take_left' hml, Bool.and_eq_true,
    decide_eq_true_eq, List.all_eq_true]
  exact ⟨⟨⟨⟨⟨trivial, trivial⟩, trivial⟩, trivial⟩, hyd⟩, hmd⟩

/-! The month files of a directory. -/

private theorem mem_destutter_ne {l : List Bytes} {x : Bytes} (h : x ∈ l) :
    x ∈ l.destutter (· ≠ ·) := by
  have from_ : ∀ (l : List Bytes) (b : Bytes), x ∈ b :: l → x ∈ l.destutter' (· ≠ ·) b := by
    intro l
    induction l with
    | nil => exact fun b h => h
    | cons c l ih =>
      intro b h
      rw [List.destutter'_cons]
      split_ifs with hbc
      · rcases List.mem_cons.mp h with rfl | h
        · exact List.mem_cons_self
        · exact List.mem_cons_of_mem _ (ih c h)
      · rw [not_ne_iff] at hbc
        subst hbc
        exact ih b (by simpa using h)
  cases l with
  | nil => exact h
  | cons b l => exact from_ l b h

theorem Dir.mem_listMonths {dir : Dir} {name : Bytes} :
    name ∈ dir.listMonths ↔ monthLog name = true ∧ (dir.text name).isSome := by
  rw [← dir.listed name]
  constructor
  · intro h
    have := (List.destutter_sublist _ _).subset h
    rw [List.mem_mergeSort, List.mem_filter] at this
    exact this.symm
  · intro h
    refine mem_destutter_ne ?_
    rw [List.mem_mergeSort, List.mem_filter]
    exact h.symm

/-- Each month is read once, in the order of the months. -/
theorem Dir.listMonths_ordered (dir : Dir) : Keyed.Ordered monthCode dir.listMonths := by
  have hle : ∀ a b : Bytes, (decide (a ≤ b) || decide (b ≤ a)) = true := fun a b => by
    simpa using Std.le_total
  have htrans : ∀ a b c : Bytes, decide (a ≤ b) = true → decide (b ≤ c) = true →
      decide (a ≤ c) = true := fun a b c hab hbc => by
    simp only [decide_eq_true_eq] at hab hbc ⊢
    exact Std.le_trans hab hbc
  have hsorted := (List.pairwise_mergeSort htrans hle (dir.listing.filter monthLog)).sublist
    (List.destutter_sublist (· ≠ ·) _)
  have hchain := List.isChain_destutter (R := (· ≠ ·))
    ((dir.listing.filter monthLog).mergeSort (· ≤ ·))
  have hmonth : ∀ name ∈ dir.listMonths, monthLog name = true :=
    fun name h => (Dir.mem_listMonths.mp h).1
  have hstrict : dir.listMonths.IsChain fun a b => monthCode a < monthCode b := by
    rw [List.isChain_iff_getElem] at hchain ⊢
    intro i hi
    have ha := hmonth _ (List.getElem_mem (Nat.lt_of_succ_lt hi))
    have hb := hmonth _ (List.getElem_mem hi)
    have hlt := List.pairwise_iff_getElem.mp hsorted i (i + 1) (Nat.lt_of_succ_lt hi) hi (by omega)
    refine lt_of_le_of_ne (monthCode_le ha hb (of_decide_eq_true hlt)) fun heq => ?_
    exact hchain i hi (monthCode_inj ha hb heq)
  have htrans : Trans (fun a b => monthCode a < monthCode b) (fun a b => monthCode a < monthCode b)
      (fun a b => monthCode a < monthCode b) := ⟨fun h h' => lt_trans h h'⟩
  exact hstrict.pairwise

/-! Histories. -/

/-- The lines of the month `name`, none where there is no file. -/
def Dir.held (dir : Dir) (name : Bytes) : List AnchorLine :=
  match dir.text name with
  | some text => (remoteLines text).toOption.getD []
  | none => []

/-- The file can be read. -/
def Dir.Verified (dir : Dir) (name : Bytes) : Prop :=
  ∀ text, dir.text name = some text → text.length ≤ maxBody ∧ Text.utf8Valid text = true ∧
    ∃ lines, remoteLines text = .ok lines

theorem Dir.getFile_eq_ok {dir : Dir} {name : Bytes} {current : Option Bytes} :
    dir.getFile name = .ok current ↔ dir.text name = current ∧
      ∀ text, current = some text → text.length ≤ maxBody ∧ Text.utf8Valid text = true := by
  unfold Dir.getFile
  cases dir.text name with
  | none =>
    constructor
    · rintro h
      obtain rfl := Except.ok.inj h
      exact ⟨rfl, fun text h => nomatch h⟩
    · rintro ⟨rfl, -⟩
      rfl
  | some text =>
    simp only
    split_ifs with hlen hutf
    · refine ⟨fun h => (nomatch h), ?_⟩
      rintro ⟨rfl, h⟩
      exact absurd (h text rfl).1 (Nat.not_le.mpr hlen)
    · refine ⟨fun h => (nomatch h), ?_⟩
      rintro ⟨rfl, h⟩
      exact absurd (h text rfl).2 (by simp [hutf])
    · constructor
      · rintro h
        obtain rfl := Except.ok.inj h
        refine ⟨rfl, fun t ht => ?_⟩
        obtain rfl := Option.some.inj ht
        exact ⟨Nat.not_lt.mp hlen, by simpa using hutf⟩
      · rintro ⟨rfl, -⟩
        rfl

theorem Dir.monthLines_eq_ok {dir : Dir} {name : Bytes} (hs : (dir.text name).isSome)
    {lines : List AnchorLine} :
    dir.monthLines name = .ok lines ↔ dir.Verified name ∧ lines = dir.held name := by
  obtain ⟨text, htext⟩ := Option.isSome_iff_exists.mp hs
  have hfile : dir.getFile name = .ok (some text) ↔
      text.length ≤ maxBody ∧ Text.utf8Valid text = true := by
    rw [Dir.getFile_eq_ok, htext]
    exact ⟨fun h => h.2 text rfl, fun h => ⟨rfl, fun t ht => Option.some.inj ht ▸ h⟩⟩
  constructor
  · intro h
    unfold Dir.monthLines at h
    cases hg : dir.getFile name with
    | error err => simp [hg, bind, Except.bind] at h
    | ok current =>
      obtain rfl : some text = current := htext ▸ (Dir.getFile_eq_ok.mp hg).1
      rw [hg] at h
      have h : remoteLines text = .ok lines := h
      refine ⟨fun t ht => ?_, by simp [Dir.held, htext, h, Except.toOption]⟩
      obtain rfl := Option.some.inj (htext.symm.trans ht)
      exact ⟨(hfile.mp hg).1, (hfile.mp hg).2, lines, h⟩
  · rintro ⟨hv, rfl⟩
    obtain ⟨hlen, hutf, lines, hlines⟩ := hv text htext
    rw [Dir.monthLines, hfile.mpr ⟨hlen, hutf⟩]
    simp [bind, Except.bind, Dir.held, htext, hlines, Except.toOption]

/-- A history is every month file in turn, all of which can be read. -/
theorem Dir.history_eq_ok {dir : Dir} {lines : List AnchorLine} :
    dir.history = .ok lines ↔
      (∀ name ∈ dir.listMonths, dir.Verified name) ∧ lines = dir.listMonths.flatMap dir.held := by
  have months : ∀ names : List Bytes, (∀ name ∈ names, (dir.text name).isSome) → ∀ parts,
      names.mapM dir.monthLines = .ok parts ↔
        (∀ name ∈ names, dir.Verified name) ∧ parts = names.map dir.held := by
    intro names
    induction names with
    | nil =>
      intro _ parts
      simp [pure, Except.pure, eq_comm]
    | cons name rest ih =>
      intro hs parts
      have hfirst := @Dir.monthLines_eq_ok dir name (hs name (by simp))
      have hrest := ih fun x hx => hs x (by simp [hx])
      rw [List.mapM_cons]
      constructor
      · intro h
        cases hf : dir.monthLines name with
        | error err => simp [hf, bind, Except.bind] at h
        | ok first =>
          cases hr : rest.mapM dir.monthLines with
          | error err => simp [hf, hr, bind, Except.bind] at h
          | ok others =>
            simp only [hf, hr, bind, Except.bind, pure, Except.pure, Except.ok.injEq] at h
            obtain ⟨hv, rfl⟩ := hfirst.mp hf
            obtain ⟨hvs, rfl⟩ := (hrest others).mp hr
            exact ⟨List.forall_mem_cons.mpr ⟨hv, hvs⟩, h.symm⟩
      · rintro ⟨hv, rfl⟩
        obtain ⟨hv, hvs⟩ := List.forall_mem_cons.mp hv
        rw [hfirst.mpr ⟨hv, rfl⟩, (hrest _).mpr ⟨hvs, rfl⟩]
        rfl
  have hsome : ∀ name ∈ dir.listMonths, (dir.text name).isSome :=
    fun name h => (Dir.mem_listMonths.mp h).2
  rw [Dir.history, List.flatMap_def]
  constructor
  · intro h
    cases hm : dir.listMonths.mapM dir.monthLines with
    | error err => simp [hm, bind, Except.bind] at h
    | ok parts =>
      obtain ⟨hv, rfl⟩ := (months _ hsome parts).mp hm
      simp only [hm, bind, Except.bind, pure, Except.pure, Except.ok.injEq] at h
      exact ⟨hv, h.symm⟩
  · rintro ⟨hv, rfl⟩
    rw [(months _ hsome _).mpr ⟨hv, rfl⟩]
    rfl

/-! One publish. -/

/-- Whatever the service answers first, what has been written is the file with the line. -/
theorem Dir.publishPath_eq_ok {dir after : Dir} {name : Bytes} {line : AnchorLine} {retried : Bool}
    {answers : List PutAnswer} (h : dir.publishPath name line retried answers = .ok after) :
    ∃ text, dir.nextText name line = .ok text ∧ after = dir.put name text := by
  induction answers generalizing retried with
  | nil =>
    rw [Dir.publishPath] at h
    cases hn : dir.nextText name line <;> simp [hn, bind, Except.bind] at h
  | cons answer rest ih =>
    rw [Dir.publishPath] at h
    cases hn : dir.nextText name line with
    | error err => simp [hn, bind, Except.bind] at h
    | ok text =>
      simp only [hn, bind, Except.bind] at h
      cases answer with
      | written => exact ⟨text, rfl, (Except.ok.inj h).symm⟩
      | refused code =>
        simp only at h
        split_ifs at h
        obtain ⟨text', htext, rfl⟩ := ih h
        exact ⟨text', hn ▸ htext, rfl⟩

theorem Dir.nextText_eq_ok {dir : Dir} {name text : Bytes} {line : AnchorLine}
    (h : dir.nextText name line = .ok text) : ∃ current, dir.getFile name = .ok current ∧
      appendText current line = .ok text ∧ text.length ≤ monthCap := by
  unfold Dir.nextText at h
  cases hg : dir.getFile name with
  | error err => simp [hg, bind, Except.bind] at h
  | ok current =>
    cases ha : appendText current line with
    | error err => simp [hg, ha, bind, Except.bind] at h
    | ok new =>
      simp only [hg, ha, bind, Except.bind] at h
      split_ifs at h with hcap
      obtain rfl := Except.ok.inj h
      exact ⟨current, rfl, ha, Nat.not_lt.mp hcap⟩

theorem appendText_utf8 {previous : Option Bytes} {line : AnchorLine} (hl : line.Recorded)
    {text : Bytes} (h : appendText previous line = .ok text)
    (hp : ∀ p, previous = some p → Text.utf8Valid p = true) : Text.utf8Valid text = true := by
  have hline : ∀ c ∈ formatLine line ++ [newline], c < 128 :=
    List.forall_mem_append.mpr ⟨fun c hc => (formatLine_bytes hl c hc).1,
      List.forall_mem_singleton.mpr (by decide)⟩
  unfold appendText at h
  split at h
  · next p hfilter =>
    have hvalid := hp p (Option.filter_eq_some_iff.mp hfilter).1
    split_ifs at h
    · obtain rfl := Except.ok.inj h
      exact Text.utf8Valid_append hvalid (Text.utf8Valid_ascii hline)
    · cases hr : remoteLines p with
      | error err => simp [hr, bind, Except.bind] at h
      | ok lines =>
        simp only [hr, bind, Except.bind, pure, Except.pure, Except.ok.injEq] at h
        subst h
        exact Text.utf8Valid_append hvalid
          (Text.utf8Valid_ascii (List.forall_mem_cons.mpr ⟨by decide, hline⟩))
  · obtain rfl := Except.ok.inj h
    exact Text.utf8Valid_ascii hline

/-- No file named after the one of `m` holds a line. -/
def Dir.NothingAfter (dir : Dir) (m : Month) : Prop :=
  ∀ name, monthLog name = true → m.fileName < name → dir.held name = []

/-- A published line is the last of the history. -/
theorem Dir.publishPath_history {dir after : Dir} {m : Month} {line : AnchorLine} {retried : Bool}
    {answers : List PutAnswer} {old : List AnchorLine} (hm : m.Valid) (hl : line.Recorded)
    (hold : dir.history = .ok old) (hlast : dir.NothingAfter m)
    (h : dir.publishPath m.fileName line retried answers = .ok after) :
    after.history = .ok (old ++ [line]) := by
  obtain ⟨text, hnext, rfl⟩ := Dir.publishPath_eq_ok h
  obtain ⟨current, hfile, happend, hcap⟩ := Dir.nextText_eq_ok hnext
  obtain ⟨hcurrent, hcheck⟩ := Dir.getFile_eq_ok.mp hfile
  obtain ⟨hverified, rfl⟩ := Dir.history_eq_ok.mp hold
  obtain ⟨hlog, hcode⟩ := hm.fileName
  have hprevious : previousLines current = .ok (dir.held m.fileName) := by
    unfold Dir.held
    rw [hcurrent]
    cases current with
    | none => rfl
    | some previous =>
      have hmem : m.fileName ∈ dir.listMonths := Dir.mem_listMonths.mpr ⟨hlog, by simp [hcurrent]⟩
      obtain ⟨-, -, lines, hlines⟩ := hverified _ hmem previous hcurrent
      simp [previousLines, hlines, Except.toOption]
  obtain ⟨text', happend', hlines⟩ := remoteLines_appendText hprevious hl
  obtain rfl := Except.ok.inj (happend.symm.trans happend')
  have hput : (dir.put m.fileName text).text m.fileName = some text :=
    dir.put_text_self _ _
  have hother {name : Bytes} (hne : name ≠ m.fileName) :
      (dir.put m.fileName text).text name = dir.text name :=
    dir.put_text_of_ne hne _
  refine Dir.history_eq_ok.mpr ⟨fun name hname => ?_, Eq.symm ?_⟩
  · intro t ht
    by_cases hne : name = m.fileName
    · subst hne
      obtain rfl := Option.some.inj (hput.symm.trans ht)
      exact ⟨hcap.trans (by decide), appendText_utf8 hl happend fun p hp => (hcheck p hp).2, _, hlines⟩
    · rw [hother hne] at ht
      exact hverified name (Dir.mem_listMonths.mpr ⟨(Dir.mem_listMonths.mp hname).1, by simp [ht]⟩)
        t ht
  · have key_inj : ∀ name ∈ (dir.put m.fileName text).listMonths,
        monthCode name = monthCode m.fileName → name = m.fileName :=
      fun name hname heq => monthCode_inj (Dir.mem_listMonths.mp hname).1 hlog heq
    refine (Dir.listMonths_ordered dir).flatMap_snoc (Dir.listMonths_ordered _) key_inj ?_ ?_ ?_ ?_ ?_
    · intro name
      rw [Dir.mem_listMonths, Dir.mem_listMonths]
      by_cases hne : name = m.fileName
      · subst hne
        simp [hput, hlog]
      · simp [hother hne, hne]
    · intro hnot
      have hnone : dir.text m.fileName = none := by
        by_contra hsome
        exact hnot (Dir.mem_listMonths.mpr ⟨hlog, Option.isSome_iff_ne_none.mpr hsome⟩)
      rw [Dir.held, hnone]
    · intro name hname hlt
      have hmonth := (Dir.mem_listMonths.mp hname).1
      refine hlast name hmonth ?_
      by_contra hle
      exact absurd hlt (Nat.not_lt.mpr (monthCode_le hmonth hlog hle))
    · conv_lhs => rw [Dir.held, hput]
      simp [hlines, Except.toOption]
    · intro name _ hne
      rw [Dir.held, hother hne, Dir.held]

/-- Nothing lies after a month the clock has reached. -/
theorem Dir.NothingAfter.put {dir : Dir} {m n : Month} (h : dir.NothingAfter m) (hm : m.Valid)
    (hn : n.Valid) (hle : m.code ≤ n.code) (text : Bytes) :
    (dir.put m.fileName text).NothingAfter n := by
  intro name hlog hlt
  have hlt_iff {a : Month} (ha : a.Valid) : a.fileName < name ↔ a.code < monthCode name := by
    obtain ⟨halog, hacode⟩ := ha.fileName
    rw [← hacode]
    constructor
    · intro hlt
      have hle : a.fileName ≤ name := Std.le_of_lt hlt
      refine lt_of_le_of_ne (monthCode_le halog hlog hle) fun heq => ?_
      rw [monthCode_inj halog hlog heq] at hlt
      exact absurd hlt (Std.lt_irrefl)
    · intro hlt
      by_contra hle
      exact absurd hlt (Nat.not_lt.mpr (monthCode_le hlog halog hle))
  have hafter := ((hlt_iff hn).mp hlt)
  have hne : name ≠ m.fileName := by
    rintro rfl
    rw [hm.fileName.2] at hafter
    omega
  rw [Dir.held, dir.put_text_of_ne hne]
  exact h name hlog ((hlt_iff hm).mpr (by omega))

/-! A run of publishes. -/

/-- Lines published one by one read back as they were, each after what its file held, and the
history of a pulse is what could be read before and then its lines in the order of the publishes,
where no line lay in a later month before. -/
theorem month_files_round_trip {remote after : Remote} {pubs : List Publication} {pulse : Bytes}
    {old : List AnchorLine} (hl : ∀ p ∈ pubs, p.line.Recorded) (hv : ∀ p ∈ pubs, p.now.Valid)
    (hclock : pubs.Pairwise fun p q => p.now.code ≤ q.now.code)
    (hold : remote.history pulse = .ok old)
    (hlast : ∀ p ∈ pubs, p.line.pulse = pulse → (remote pulse).NothingAfter p.now)
    (hpub : remote.publishAll pubs = .ok after) :
    (∀ p ∈ pubs, parseLine (formatLine p.line) = .ok p.line ∧
      ∀ previous lines, previousLines previous = .ok lines → ∃ text,
        appendText previous p.line = .ok text ∧ remoteLines text = .ok (lines ++ [p.line])) ∧
    after.history pulse =
      .ok (old ++ (pubs.map Publication.line).filter fun line => line.pulse = pulse) := by
  refine ⟨fun p hp => ⟨parseLine_formatLine (hl p hp), fun previous lines hlines =>
    remoteLines_appendText hlines (hl p hp)⟩, ?_⟩
  induction pubs generalizing remote old with
  | nil =>
    obtain rfl := Except.ok.inj hpub
    simpa using hold
  | cons p rest ih =>
    obtain ⟨hfirst, hrest⟩ := List.pairwise_cons.mp hclock
    have hplain := (hl p (by simp)).pulse
    rw [Remote.publishAll, Remote.publish, if_pos hplain] at hpub
    cases hd : (remote p.line.pulse).publishPath p.now.fileName p.line false p.answers with
    | error err => simp [hd, bind, Except.bind] at hpub
    | ok dir =>
      simp only [hd, bind, Except.bind, pure, Except.pure] at hpub
      have step {old : List AnchorLine} := @ih (Function.update remote p.line.pulse dir) old
      have hl' : ∀ q ∈ rest, q.line.Recorded := fun q hq => hl q (by simp [hq])
      have hv' : ∀ q ∈ rest, q.now.Valid := fun q hq => hv q (by simp [hq])
      by_cases hsame : p.line.pulse = pulse
      · subst hsame
        have hold' : (remote p.line.pulse).history = .ok old := by
          rwa [Remote.history, if_pos hplain] at hold
        have hlast' := hlast p (by simp) rfl
        have hnext := Dir.publishPath_history (hv p (by simp)) (hl p (by simp)) hold' hlast' hd
        obtain ⟨text, -, rfl⟩ := Dir.publishPath_eq_ok hd
        have hhist := @step (old ++ [p.line]) hl' hv' hrest ?_ ?_ hpub
        · simpa using hhist
        · rw [Remote.history, if_pos hplain, Function.update_self]
          exact hnext
        · intro q hq _
          rw [Function.update_self]
          exact hlast'.put (hv p (by simp)) (hv' q hq) (hfirst q hq) text
      · have hother : Function.update remote p.line.pulse dir pulse = remote pulse :=
          Function.update_of_ne (Ne.symm hsame) ..
        have hhist := @step old hl' hv' hrest ?_ ?_ hpub
        · simpa [hsame] using hhist
        · rw [Remote.history, hother]
          exact hold
        · intro q hq hpulse
          rw [hother]
          exact hlast q (by simp [hq]) hpulse

/-- A file with the lines of a few publishes is small ASCII. -/
private theorem sample_text {line : AnchorLine} (hl : line.Recorded) (h : line.size = 114)
    {before : Bytes} (hb : before.length ≤ 114) (hascii : ∀ c ∈ before, c < 128) :
    (before ++ (formatLine line ++ [newline])).length ≤ monthCap ∧
      Text.utf8Valid (before ++ (formatLine line ++ [newline])) = true := by
  have hline : ∀ c ∈ formatLine line ++ [newline], c < 128 :=
    List.forall_mem_append.mpr ⟨fun c hc => (formatLine_bytes hl c hc).1,
      List.forall_mem_singleton.mpr (by decide)⟩
  refine ⟨?_, Text.utf8Valid_ascii (List.forall_mem_append.mpr ⟨hascii, hline⟩)⟩
  rw [AnchorLine.size] at h
  rw [List.length_append, List.length_append, List.length_singleton, h, monthCap]
  omega

/-- A directory with one file. -/
def sampleDir (m : Month) (text : Bytes) : Dir :=
  Dir.put ⟨fun _ => none, [], by simp⟩ m.fileName text

def sampleNext : AnchorLine := { sampleTip with seq := 1 }

private theorem sample_sizes : sampleTip.size = 114 ∧ sampleNext.size = 114 := ⟨rfl, rfl⟩

theorem sampleNext_recorded : sampleNext.Recorded :=
  ⟨sampleTip_recorded.pulse, sampleTip_recorded.ledgerId, sampleTip_recorded.head,
    sampleTip_recorded.ts⟩

private theorem sampleDir_text (m : Month) (text name : Bytes) :
    (sampleDir m text).text name = if name = m.fileName then some text else none :=
  Function.update_apply ..

private theorem sampleDir_history {m : Month} (hm : m.Valid) {text : Bytes}
    (hlen : text.length ≤ maxBody) (hutf : Text.utf8Valid text = true) {lines : List AnchorLine}
    (h : remoteLines text = .ok lines) : (sampleDir m text).history = .ok lines := by
  have hmonths : (sampleDir m text).listMonths = [m.fileName] := by
    refine (Dir.listMonths_ordered _).eq_of_mem_iff (List.pairwise_singleton _ _) fun name => ?_
    rw [Dir.mem_listMonths, sampleDir_text, List.mem_singleton]
    by_cases hname : name = m.fileName
    · subst hname
      simp [hm.fileName.1]
    · simp [hname]
  refine Dir.history_eq_ok.mpr ⟨fun name hname t ht => ?_, ?_⟩
  · rw [hmonths, List.mem_singleton] at hname
    subst hname
    rw [sampleDir_text, if_pos rfl] at ht
    obtain rfl := Option.some.inj ht
    exact ⟨hlen, hutf, lines, h⟩
  · rw [hmonths, List.flatMap_singleton, Dir.held, sampleDir_text, if_pos rfl]
    simp [h, Except.toOption]

private theorem sample_append : appendText (some (formatLine sampleTip)) sampleNext =
    .ok (formatLine sampleTip ++ newline :: (formatLine sampleNext ++ [newline])) ∧
      remoteLines (formatLine sampleTip) = .ok [sampleTip] := by
  have hbytes := formatLine_bytes sampleTip_recorded
  have hnl : newline ∉ formatLine sampleTip := fun h => (hbytes _ h).2.1 rfl
  have hne : formatLine sampleTip ≠ [] := by simp [formatLine, ascii]
  have hread : remoteLines (formatLine sampleTip) = .ok [sampleTip] := by
    have := remoteLines_torn Text.complete_nil hnl hne
    rwa [List.nil_append, parseHistory_nil, parseLine_formatLine sampleTip_recorded] at this
  refine ⟨?_, hread⟩
  have hfilter : (some (formatLine sampleTip)).filter (· ≠ []) = some (formatLine sampleTip) := by
    simp [hne]
  have hlast : (formatLine sampleTip).getLast? ≠ some newline :=
    fun h => hnl (List.mem_of_getLast? h)
  simp only [appendText, hfilter, if_neg hlast, hread]
  rfl

/-- A conflict, and then the line after one that had no newline. -/
theorem month_files_round_trip_sample :
    (∀ p ∈ [(⟨sampleNext, ⟨2026, 8⟩, [.refused 409, .written]⟩ : Publication)],
      parseLine (formatLine p.line) = .ok p.line ∧
      ∀ previous lines, previousLines previous = .ok lines → ∃ text,
        appendText previous p.line = .ok text ∧ remoteLines text = .ok (lines ++ [p.line])) ∧
    Remote.history (Function.update (fun _ => sampleDir ⟨2026, 8⟩ (formatLine sampleTip)) (ascii "p")
      ((sampleDir ⟨2026, 8⟩ (formatLine sampleTip)).put (Month.fileName ⟨2026, 8⟩)
        (formatLine sampleTip ++ newline :: (formatLine sampleNext ++ [newline])))) (ascii "p") =
      .ok ([sampleTip] ++ ([sampleNext].filter fun line => line.pulse = ascii "p")) := by
  have hm : Month.Valid ⟨2026, 8⟩ := ⟨by decide, by decide, by decide⟩
  have hlen : (formatLine sampleTip).length = 113 := rfl
  have hascii : ∀ c ∈ formatLine sampleTip, c < 128 :=
    fun c hc => (formatLine_bytes sampleTip_recorded c hc).1
  have hcap : (formatLine sampleTip).length ≤ maxBody := by rw [hlen, maxBody]; omega
  have hafter := (@sample_text sampleNext sampleNext_recorded sample_sizes.2
    (formatLine sampleTip ++ [newline]) (by rw [List.length_append, hlen]; rfl)
    (List.forall_mem_append.mpr ⟨hascii, List.forall_mem_singleton.mpr (by decide)⟩)).1
  rw [List.append_assoc, List.singleton_append] at hafter
  refine @month_files_round_trip (fun _ => sampleDir ⟨2026, 8⟩ (formatLine sampleTip)) _
    [⟨sampleNext, ⟨2026, 8⟩, [.refused 409, .written]⟩] (ascii "p") [sampleTip]
    (List.forall_mem_singleton.mpr sampleNext_recorded) (List.forall_mem_singleton.mpr hm)
    (List.pairwise_singleton _ _) ?_ (List.forall_mem_singleton.mpr fun _ name _ hlt => ?_) ?_
  · exact (if_pos rfl).trans (sampleDir_history hm hcap (Text.utf8Valid_ascii hascii) sample_append.2)
  · have hne : name ≠ Month.fileName ⟨2026, 8⟩ := fun h => Std.lt_irrefl (h ▸ hlt)
    rw [Dir.held, sampleDir_text, if_neg hne]
  · have hnext : (sampleDir ⟨2026, 8⟩ (formatLine sampleTip)).nextText (Month.fileName ⟨2026, 8⟩)
        sampleNext = .ok (formatLine sampleTip ++ newline :: (formatLine sampleNext ++ [newline])) := by
      have hfile := (@Dir.getFile_eq_ok (sampleDir ⟨2026, 8⟩ (formatLine sampleTip))
        (Month.fileName ⟨2026, 8⟩) (some (formatLine sampleTip))).mpr
        ⟨by rw [sampleDir_text, if_pos rfl], fun t ht => Option.some.inj ht ▸ ⟨hcap, Text.utf8Valid_ascii hascii⟩⟩
      rw [Dir.nextText, hfile]
      simp only [bind, Except.bind, sample_append.1]
      exact if_neg (Nat.not_lt.mpr hafter)
    have hplain : isPlainPulseName sampleNext.pulse = true := rfl
    rw [Remote.publishAll, Remote.publish, if_pos hplain, Dir.publishPath, hnext]
    simp only [bind, Except.bind, and_self, if_true]
    rw [Dir.publishPath, hnext]
    rfl

/-- A file of a later month, there before the first publish, stays last. -/
theorem later_month_misplaced : ¬∀ (remote after : Remote) (pubs : List Publication)
    (pulse : Bytes) (old : List AnchorLine), (∀ p ∈ pubs, p.line.Recorded) →
      (∀ p ∈ pubs, p.now.Valid) → (pubs.Pairwise fun p q => p.now.code ≤ q.now.code) →
      remote.history pulse = .ok old → remote.publishAll pubs = .ok after →
      after.history pulse =
        .ok (old ++ (pubs.map Publication.line).filter fun line => line.pulse = pulse) := by
  intro h
  have hearly : Month.Valid ⟨2026, 8⟩ := ⟨by decide, by decide, by decide⟩
  have hlate : Month.Valid ⟨2099, 1⟩ := ⟨by decide, by decide, by decide⟩
  have hold := remoteLines_complete (Text.complete_line (formatLine sampleTip))
  rw [parseHistory_formatLine sampleTip_recorded] at hold
  have hnew := remoteLines_complete (Text.complete_line (formatLine sampleNext))
  rw [parseHistory_formatLine sampleNext_recorded] at hnew
  have hne : Month.fileName ⟨2026, 8⟩ ≠ Month.fileName ⟨2099, 1⟩ := by decide
  have htip := @sample_text sampleTip sampleTip_recorded sample_sizes.1 [] (Nat.zero_le _)
    fun c hc => nomatch hc
  rw [List.nil_append] at htip
  have hplain : isPlainPulseName (ascii "p") = true := rfl
  let dir := sampleDir ⟨2099, 1⟩ (formatLine sampleTip ++ [newline])
  have hnext : dir.nextText (Month.fileName ⟨2026, 8⟩) sampleNext =
      .ok (formatLine sampleNext ++ [newline]) := by
    have hfile := (@Dir.getFile_eq_ok dir (Month.fileName ⟨2026, 8⟩) none).mpr
      ⟨by rw [sampleDir_text, if_neg hne], fun t ht => nomatch ht⟩
    have hafter := (@sample_text sampleNext sampleNext_recorded sample_sizes.2 [] (Nat.zero_le _)
      fun c hc => nomatch hc).1
    rw [List.nil_append] at hafter
    have happend : appendText none sampleNext = .ok (formatLine sampleNext ++ [newline]) := rfl
    rw [Dir.nextText, hfile]
    simp only [bind, Except.bind, happend]
    exact if_neg (Nat.not_lt.mpr hafter)
  have hpub : Remote.publishAll (fun _ => dir) [⟨sampleNext, ⟨2026, 8⟩, [.written]⟩] =
      .ok (Function.update (fun _ => dir) (ascii "p")
        (dir.put (Month.fileName ⟨2026, 8⟩) (formatLine sampleNext ++ [newline]))) := by
    rw [Remote.publishAll, Remote.publish, if_pos sampleNext_recorded.pulse, Dir.publishPath, hnext]
    rfl
  have hhist := h _ _ _ (ascii "p") [sampleTip] (List.forall_mem_singleton.mpr sampleNext_recorded)
    (List.forall_mem_singleton.mpr hearly) (List.pairwise_singleton _ _)
    ((if_pos hplain).trans (sampleDir_history hlate (htip.1.trans (by decide)) htip.2 hold)) hpub
  rw [Remote.history, if_pos hplain, Function.update_self] at hhist
  have hlines := (Dir.history_eq_ok.mp hhist).2
  have hmonths : (dir.put (Month.fileName ⟨2026, 8⟩) (formatLine sampleNext ++ [newline])).listMonths =
      [Month.fileName ⟨2026, 8⟩, Month.fileName ⟨2099, 1⟩] := by
    refine (Dir.listMonths_ordered _).eq_of_mem_iff ?_ fun name => ?_
    · refine List.pairwise_cons.mpr ⟨fun name hname => ?_, List.pairwise_singleton _ _⟩
      rw [List.mem_singleton.mp hname, hearly.fileName.2, hlate.fileName.2]
      decide
    · rw [Dir.mem_listMonths, List.mem_cons, List.mem_singleton]
      by_cases he : name = Month.fileName ⟨2026, 8⟩
      · subst he
        simp [hearly.fileName.1, Dir.put]
      · by_cases hl : name = Month.fileName ⟨2099, 1⟩
        · subst hl
          simp [hlate.fileName.1, Dir.put, dir, sampleDir, he]
        · simp [Dir.put, dir, sampleDir, he, hl]
  have hfirst : (dir.put (Month.fileName ⟨2026, 8⟩) (formatLine sampleNext ++ [newline])).held
      (Month.fileName ⟨2026, 8⟩) = [sampleNext] := by
    rw [Dir.held, Dir.put_text_self]
    simp only [hnew, Except.toOption, Option.getD_some]
  have hsecond : (dir.put (Month.fileName ⟨2026, 8⟩) (formatLine sampleNext ++ [newline])).held
      (Month.fileName ⟨2099, 1⟩) = [sampleTip] := by
    rw [Dir.held, dir.put_text_of_ne hne.symm, sampleDir_text, if_pos rfl]
    simp only [hold, Except.toOption, Option.getD_some]
  rw [hmonths, List.flatMap_cons, List.flatMap_cons, hfirst, hsecond] at hlines
  have hseq := congrArg AnchorLine.seq (List.cons.inj hlines).1
  exact absurd hseq (by decide)

end PulseNull.Oneself
