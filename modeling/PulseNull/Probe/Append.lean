import PulseNull.Probe.Loss
import PulseNull.Machine

/-! Appending to a file of the probe record: the row that is read back, what a torn write leaves, and
the hash that is taken from the last append instead of the file. -/
namespace PulseNull.Probe
open Text (ascii newline)

/-- What a stream's file looked like after its last append. `hasher` is SHA-256's state over those
bytes. -/
structure Tail where
  len : Nat
  digest : { digest : Bytes // digest.length = 32 }
  hash : Bytes
  hasher : Bytes

/-- The hash to chain the next row to, and a hasher over the file's bytes. -/
def Env.tailHash (env : Env) (tail : Option Tail) (file : Bytes) : Bytes × Bytes × Nat :=
  match tail with
  | some tail =>
    if tail.len = file.length && tail.digest = env.sha256 file then
      (tail.hash, tail.hasher, file.length)
    else (env.lastHash file, file, file.length)
  | none => (env.lastHash file, file, file.length)

/-- What an append writes, and what it remembers of the file it leaves. Only an object is a row. -/
def Env.append (env : Env) (tail : Option Tail) (file : Bytes) : Json → Option (Bytes × Tail)
  | .obj row => do
    let (prev, hasher, len) := env.tailHash tail file
    let fields ← env.sealRow prev row
    let text ← Json.print (.obj fields)
    let line := appended file text
    let hash := (getStr (ascii "hash") fields).getD []
    return (line, ⟨len + line.length, env.sha256 (hasher ++ line), hash, hasher ++ line⟩)
  | _ => none

variable {env : Env}

/-! One line more. -/

/-- The row as it is read back. -/
def bareRow (row : Members) : Members := erase (ascii "hash") (erase (ascii "prev") row)

def ChainRead.plus (read : ChainRead) (row : Members) : ChainRead :=
  { read with rows := read.rows ++ [row] }

/-- The hash the next row is to name is the last one that was read. -/
theorem readLines_prev {number : Nat} {r : Reading} (lines : List Bytes)
    (hr : r.last.getD genesis = r.prev) :
    (env.readLines number r lines).last.getD genesis = (env.readLines number r lines).prev := by
  induction lines generalizing number r with
  | nil => exact hr
  | cons line lines ih =>
    refine ih ?_
    unfold Env.readLine
    split
    · split <;> exact hr
    · split
      · rfl
      · exact hr

theorem lastHash_eq (file : Bytes) :
    env.lastHash file = (env.readLines 1 .start (lineBytes file)).prev := readLines_prev _ rfl

/-- A row that follows is read as it was handed over, without its two hashes. -/
theorem readLine_row {row : Members} {line : Bytes} {r : Reading} (number : Nat) (h : RowValue row)
    (hl : env.rowLine r.prev row = some line) (hu : Text.utf8Valid line = true) :
    ∃ hash, (∃ ms, env.sealRow r.prev row = some ms ∧ getStr (ascii "hash") ms = some hash) ∧
      env.readLine number r line = ⟨r.read.plus (bareRow row), hash, some hash⟩ := by
  obtain ⟨ms, text, hprint, hread, -, hlink⟩ := rowLine_link h hl hu
  obtain ⟨ms', hseal, hline⟩ := Option.bind_eq_some_iff.mp hl
  obtain ⟨inner, -, hms⟩ := Option.map_eq_some_iff.mp hseal
  have hread' : env.readRow line = some ms' := by
    have hfields := ((h.erase (ascii "prev")).erase (ascii "hash")).insert (ascii "prev") r.prev
    rw [← hms] at hline ⊢
    exact readRow_print (hfields.insert _ _) hline hu
  obtain rfl : ms = ms' := Option.some.inj (hread.symm.trans hread')
  rw [Env.link, hread, Option.map_some, Option.some.injEq, HashChain.Link.mk.injEq] at hlink
  obtain ⟨hprev, hown⟩ := hlink
  split at hown
  · next hhash =>
    have hverified : env.verified r.prev line ms = true := by
      simp [Env.verified, hprev, hhash]
    have hbare : erase (ascii "prev") (erase (ascii "hash") ms) = bareRow row := by
      have hnoPrev : ∀ m ∈ bareRow row, m.1 ≠ ascii "prev" := by
        intro m hm
        have := (List.mem_filter.mp (List.mem_filter.mp hm).1).2
        simpa using this
      have hnoHash : ∀ m ∈ Json.insert (ascii "prev") (.str r.prev) (bareRow row),
          m.1 ≠ ascii "hash" := by
        intro m hm
        rcases mem_insert hm with rfl | hm
        · change ascii "prev" ≠ ascii "hash"
          decide
        · simpa using (List.mem_filter.mp hm).2
      rw [← hms]
      change erase (ascii "prev") (erase (ascii "hash")
        (Json.insert (ascii "hash") _ (Json.insert (ascii "prev") (.str r.prev) (bareRow row)))) = _
      rw [erase_insert _ hnoHash, erase_insert _ hnoPrev]
    refine ⟨_, ⟨ms, hseal, hhash⟩, ?_⟩
    unfold Env.readLine
    rw [hread]
    dsimp only
    rw [if_pos hverified, hhash, hbare]
    rfl
  · cases hown

/-- A line that is no row changes neither the rows nor the chain. -/
theorem readLine_none {line : Bytes} (number : Nat) (r : Reading) (h : env.readRow line = none) :
    (env.readLine number r line).read.rows = r.read.rows ∧
      (env.readLine number r line).read.brokenAt = r.read.brokenAt ∧
      (env.readLine number r line).read.rejected = r.read.rejected := by
  unfold Env.readLine
  rw [h]
  dsimp only
  split <;> exact ⟨rfl, rfl, rfl⟩

/-! An append. -/

/-- The row is a map value, and its line is a string. -/
structure Env.IsRow (env : Env) (tail : Option Tail) (file : Bytes) (row : Json) : Prop where
  normal : row.Normal
  text : ∀ ms, row = .obj ms → ∀ line, env.rowLine (env.tailHash tail file).1 ms = some line →
    Text.utf8Valid line = true

/-- The row is nested no deeper than the reader follows. -/
structure Env.Fits (env : Env) (tail : Option Tail) (file : Bytes) (row : Json) : Prop
    extends env.IsRow tail file row where
  depth : row.depth ≤ Json.maxDepth

theorem Env.Fits.value {tail : Option Tail} {file : Bytes} {ms : Members}
    (h : env.Fits tail file (.obj ms)) : RowValue ms :=
  ⟨h.normal.1, h.normal.2, h.depth⟩

/-- What a writer remembers is the file it left, with the hash a reader of it comes to. -/
structure Env.Remembers (env : Env) (tail : Tail) : Prop where
  len : tail.len = tail.hasher.length
  digest : tail.digest = env.sha256 tail.hasher
  hash : tail.hash = env.lastHash tail.hasher

/-- SHA-256 tells the file from the one the writer left. -/
def Env.Apart (env : Env) (tail : Option Tail) (file : Bytes) : Prop :=
  ∀ t ∈ tail, env.sha256 t.hasher = env.sha256 file → t.hasher = file

/-- What is remembered of the file is what the file says. -/
theorem tailHash_eq {tail : Option Tail} {file : Bytes} (ht : ∀ t ∈ tail, env.Remembers t)
    (ha : env.Apart tail file) : env.tailHash tail file = (env.lastHash file, file, file.length) := by
  unfold Env.tailHash
  split
  · next t =>
    split_ifs with hhit
    · simp only [Bool.and_eq_true, decide_eq_true_eq] at hhit
      have hr := ht t rfl
      have hfile := ha t rfl (hr.digest.symm.trans hhit.2)
      rw [hr.hash, hfile]
    · rfl
  · rfl

theorem append_some {tail : Option Tail} {file line : Bytes} {row : Json} {next : Tail}
    (ht : env.tailHash tail file = (env.lastHash file, file, file.length))
    (h : env.append tail file row = some (line, next)) : ∃ ms text fields, row = .obj ms ∧
      env.sealRow (env.lastHash file) ms = some fields ∧
      env.rowLine (env.lastHash file) ms = some text ∧ line = appended file text ∧
      next = ⟨file.length + line.length, env.sha256 (file ++ line),
        (getStr (ascii "hash") fields).getD [], file ++ line⟩ := by
  cases row with
  | obj ms =>
    rw [Env.append, ht] at h
    simp only [Option.bind_eq_bind, Option.bind_eq_some_iff] at h
    obtain ⟨fields, hseal, text, htext, h⟩ := h
    obtain ⟨rfl, rfl⟩ := Prod.mk.inj (Option.some.inj h)
    exact ⟨ms, text, fields, rfl, hseal, Option.bind_eq_some_iff.mpr ⟨fields, hseal, htext⟩, rfl, rfl⟩
  | null | bool | num | str | arr => cases h

/-- The same line with a file that is read again. -/
theorem append_none {tail : Option Tail} {file : Bytes} {row : Json}
    (ht : env.tailHash tail file = (env.lastHash file, file, file.length)) :
    env.append none file row = env.append tail file row := by
  cases row with
  | obj ms =>
    rw [Env.append, Env.append, ht]
    rfl
  | null | bool | num | str | arr => rfl

/-- What is to be shown of an append that wrote `line`. -/
structure Env.Exact (env : Env) (file line : Bytes) (row : Json) : Prop where
  whole : ∃ ms, row = .obj ms ∧
    env.readChain (file ++ line) = (env.readChain file).plus (bareRow ms)
  torn : ∀ kept, (env.readChain (file ++ line.take kept)).brokenAt = (env.readChain file).brokenAt ∧
    (env.readChain (file ++ line.take kept)).rejected = (env.readChain file).rejected ∧
    ((env.readChain (file ++ line.take kept)).rows = (env.readChain file).rows ∨
      ∃ ms, row = .obj ms ∧
        (env.readChain (file ++ line.take kept)).rows = (env.readChain file).rows ++ [bareRow ms])
  same : ∃ next, env.append none file row = some (line, next)

theorem lineBytes_appended {file text : Bytes} (h : newline ∉ text) :
    lineBytes (file ++ appended file text) = lineBytes file ++ [text] := by
  unfold lineBytes appended
  cases ht : endsTorn file with
  | false =>
    rw [if_neg (by simp), List.nil_append, Text.lines_append (endsTorn_complete ht),
      Text.lines_line h, List.map_append]
    rfl
  | true =>
    obtain ⟨a, l, ha, hl, rfl⟩ := Text.exists_tail file
    have hne : l ≠ [] := by
      rintro rfl
      rw [List.append_nil] at ht
      rcases ha with rfl | ⟨init, rfl⟩
      · cases ht
      · rw [endsTorn, List.getLast?_concat] at ht
        cases ht
    rw [if_pos rfl, List.append_assoc, List.singleton_append, Text.lines_append ha,
      Text.lines_line hl, Text.lines_line h, Text.lines_append_torn ha hl hne]
    simp

theorem readChain_append {file part : Bytes} {lines : List Bytes}
    (h : lineBytes (file ++ part) = lineBytes file ++ lines) : env.readChain (file ++ part) =
      (env.readLines (1 + (lineBytes file).length) (env.readLines 1 .start (lineBytes file))
        lines).read := by
  rw [Env.readChain, Env.readChainRaw, h, readLines_append]

/-- From a true memory of any file, the row is read back, a part of its line never shows, and the
line is the one a reader of the file would write. -/
theorem append_exact {tail : Option Tail} {file line : Bytes} {row : Json} {next : Tail}
    (ht : ∀ t ∈ tail, env.Remembers t) (ha : env.Apart tail file) (hf : env.Fits tail file row)
    (h : env.append tail file row = some (line, next)) :
    env.Exact file line row ∧ env.Remembers next := by
  have htail := tailHash_eq ht ha
  obtain ⟨ms, text, fields, rfl, hseal, hline, rfl, rfl⟩ := append_some htail h
  have hvalue := hf.value
  have hu := hf.text ms rfl text (by rwa [htail])
  have hlines := @lineBytes_appended file _ (rowLine_no_newline hline)
  rw [lastHash_eq] at hline hseal
  obtain ⟨hash, ⟨ms', hseal', hget⟩, hread⟩ :=
    readLine_row (1 + (lineBytes file).length) hvalue hline hu
  obtain rfl : ms' = fields := Option.some.inj (hseal'.symm.trans hseal)
  refine ⟨⟨⟨ms, rfl, ?_⟩, fun kept => ?_, ?_⟩, ⟨?_, rfl, ?_⟩⟩
  · rw [readChain_append hlines]
    exact congrArg Reading.read hread
  · obtain ⟨new, hnew, hbytes⟩ := lineBytes_append (List.take_prefix kept (appended file text))
    rcases lineBytes_part (rowLine_no_newline hline) hnew with hnil | ⟨t, hpart, hone⟩
    · rw [readChain_append hbytes, hnil]
      exact ⟨rfl, rfl, .inl rfl⟩
    · rw [readChain_append hbytes, hone]
      by_cases hfull : t = text
      · subst hfull
        change (env.readLine _ _ t).read.brokenAt = _ ∧ (env.readLine _ _ t).read.rejected = _ ∧ _
        rw [hread]
        exact ⟨rfl, rfl, .inr ⟨ms, rfl, congrArg (fun r : Reading => r.read.rows) hread⟩⟩
      · obtain ⟨ms'', text', hprint, hrow, -, -⟩ := rowLine_link hvalue hline hu
        have hcut := link_cut hprint hrow hpart hfull
        have hnone : env.readRow t = none := by
          rw [Env.link, Option.map_eq_none_iff] at hcut
          exact hcut
        obtain ⟨hrows, hbroken, hrejected⟩ := readLine_none (1 + (lineBytes file).length)
          (env.readLines 1 .start (lineBytes file)) hnone
        exact ⟨hbroken, hrejected, .inl hrows⟩
  · exact ⟨_, (append_none htail).trans h⟩
  · rw [List.length_append]
  · rw [lastHash_eq, hlines, readLines_append]
    change _ = (env.readLine _ _ text).prev
    rw [hread, hget]
    rfl

/-! Runs. -/

/-- The record's file, what each writer remembers of it. -/
structure Shelf where
  file : Bytes
  tails : Nat → Option Tail

/-- A writer appends under the lock, or its write is cut short; the file is edited from outside; a
writer starts anew. -/
inductive Touch where
  | append (writer : Nat) (row : Json)
  | torn (writer : Nat) (row : Json) (kept : Nat)
  | edit (file : Bytes)
  | reopen (writer : Nat)

def Env.touch (env : Env) (s : Shelf) : Touch → Shelf
  | .append writer row =>
    match env.append (s.tails writer) s.file row with
    | some (line, tail) => ⟨s.file ++ line, Function.update s.tails writer (some tail)⟩
    | none => s
  | .torn writer row kept =>
    match env.append (s.tails writer) s.file row with
    | some (line, _) => { s with file := s.file ++ line.take kept }
    | none => s
  | .edit file => { s with file := file }
  | .reopen writer => { s with tails := Function.update s.tails writer none }

def Env.shelf (env : Env) (file : Bytes) : Machine Shelf Touch := ⟨⟨file, fun _ => none⟩, env.touch⟩

/-- Rows, and no two files with one digest. -/
def Env.Lawful (env : Env) (s : Shelf) : Touch → Prop
  | .append writer row | .torn writer row _ =>
    env.IsRow (s.tails writer) s.file row ∧ env.Apart (s.tails writer) s.file
  | .edit _ | .reopen _ => True

/-- The rows fit as well. -/
def Env.Meets (env : Env) (s : Shelf) : Touch → Prop
  | .append writer row | .torn writer row _ =>
    env.Fits (s.tails writer) s.file row ∧ env.Apart (s.tails writer) s.file
  | .edit _ | .reopen _ => True

theorem touch_remembers {s : Shelf} {act : Touch} (h : ∀ w, ∀ t ∈ s.tails w, env.Remembers t)
    (hok : env.Meets s act) : ∀ w, ∀ t ∈ (env.touch s act).tails w, env.Remembers t := by
  cases act with
  | append writer row =>
    obtain ⟨hf, ha⟩ := hok
    unfold Env.touch
    dsimp only
    split
    · next line tail happ =>
      intro w t ht
      dsimp only at ht
      by_cases hw : w = writer
      · subst hw
        rw [Function.update_self] at ht
        obtain rfl := Option.some.inj ht
        exact (append_exact (h w) ha hf happ).2
      · rw [Function.update_of_ne hw] at ht
        exact h w t ht
    · exact h
  | torn writer row kept =>
    unfold Env.touch
    dsimp only
    split <;> exact h
  | edit file => exact h
  | reopen writer =>
    intro w t ht
    change t ∈ Function.update s.tails writer none w at ht
    by_cases hw : w = writer
    · subst hw
      rw [Function.update_self] at ht
      exact nomatch ht
    · rw [Function.update_of_ne hw] at ht
      exact h w t ht

/-- In every run of writers, torn writes and outside edits from any file, an append is exact as long
as the rows fit. -/
theorem appends_exact (env : Env) (file : Bytes) {s : Shelf}
    (hs : (env.shelf file).Runs env.Meets s) (writer : Nat) (row : Json)
    (hok : env.Meets s (.append writer row)) {line : Bytes} {next : Tail}
    (h : env.append (s.tails writer) s.file row = some (line, next)) : env.Exact s.file line row := by
  have hall : ∀ w, ∀ t ∈ s.tails w, env.Remembers t := by
    refine hs.invariant (I := fun s => ∀ w, ∀ t ∈ s.tails w, env.Remembers t) ?_
      (fun _ _ => touch_remembers)
    intro w t ht
    exact absurd ht (by simp [Env.shelf])
  exact (append_exact (hall writer) hok.2 hok.1 h).1

/-! A row nested too deep. -/

def nested : Nat → Json
  | 0 => .arr []
  | n + 1 => .arr [nested n]

def deepRow : Json := .obj [(ascii "n", nested 126)]

/-- The first row's line. -/
def shelfFirst : Bytes :=
  ascii "\x7b\"hash\":\"d448debd9aafbb999205d5bd2a80974cf2a410ef6332b5ccc5533382bb53369f" ++
    ascii "\",\"n\":1,\"prev\":\"genesis\"\x7d\n"

/-- The second row's line. -/
def shelfSecond : Bytes :=
  ascii "\x7b\"hash\":\"ab051b90671c20668cfb0cdd43183d33150694f12a27ef52c1b1867049e958b1" ++
    ascii "\",\"n\":2,\"prev\":\"d448debd9aafbb999205d5bd2a80974cf2a410ef6332b5ccc5533382bb53369f" ++
    ascii "\"\x7d\n"

def deepText : Bytes := ascii "\x7b\"n\":" ++ List.replicate 127 Json.openBracket ++
  List.replicate 127 Json.closeBracket ++ ascii ",\"prev\":\"genesis\"\x7d"

/-- The file of the deep row. -/
def deepFile : Bytes :=
  ascii "\x7b\"hash\":\"205c08a29203fda44cca52dcd95b5447e03c7aab8d34d2d88b8e9c16f48e6f7a\"," ++
    deepText.tail ++ [newline]

def afterDeep : Bytes :=
  ascii "\x7b\"n\":1,\"prev\":\"205c08a29203fda44cca52dcd95b5447e03c7aab8d34d2d88b8e9c16f48e6f7a" ++
    ascii "\"\x7d"

/-- SHA-256 on these rows and files. -/
def shelfSha (bytes : Bytes) : { digest : Bytes // digest.length = 32 } :=
  if bytes = shelfFirst ++ shelfSecond.take 5 then
    ⟨[0x85, 0x55, 0x22, 0xf7, 0x94, 0x45, 0x8b, 0x85, 0xd6, 0xec, 0xa1, 0xad, 0x6a, 0xff, 0x11, 0xf8,
      0xad, 0x32, 0x6a, 0x50, 0xc3, 0x96, 0xe1, 0xa4, 0x75, 0x3a, 0x46, 0x78, 0xe2, 0xae, 0x6f, 0xa6], rfl⟩
  else if bytes = shelfFirst ++ shelfSecond.take 5 ++ newline :: shelfSecond then
    ⟨[0x8d, 0x2b, 0xec, 0x03, 0x39, 0x92, 0xcf, 0x9f, 0x78, 0xe6, 0xd0, 0x02, 0xed, 0x05, 0x0c, 0xa4,
      0xbd, 0x61, 0x92, 0x6f, 0x14, 0xd1, 0x59, 0x19, 0xe2, 0xa8, 0xfc, 0xe9, 0x59, 0x13, 0xc5, 0xd0], rfl⟩
  else if bytes = deepText then
    ⟨[0x20, 0x5c, 0x08, 0xa2, 0x92, 0x03, 0xfd, 0xa4, 0x4c, 0xca, 0x52, 0xdc, 0xd9, 0x5b, 0x54, 0x47,
      0xe0, 0x3c, 0x7a, 0xab, 0x8d, 0x34, 0xd2, 0xd8, 0x8b, 0x8e, 0x9c, 0x16, 0xf4, 0x8e, 0x6f, 0x7a], rfl⟩
  else if bytes = deepFile then
    ⟨[0xd8, 0x2b, 0x03, 0xf3, 0xd7, 0x37, 0xa0, 0xa0, 0x28, 0x53, 0x15, 0xf9, 0x64, 0x4f, 0x92, 0xc2,
      0x43, 0x1f, 0x19, 0x0f, 0x6f, 0xb4, 0xe7, 0xa5, 0x17, 0xaa, 0x27, 0x4a, 0x88, 0x04, 0xbe, 0x0a], rfl⟩
  else if bytes = afterDeep then
    ⟨[0xe2, 0xd1, 0xe6, 0x8e, 0x81, 0x6f, 0x15, 0x0a, 0xf9, 0x14, 0xe7, 0xdc, 0x82, 0x63, 0x79, 0xce,
      0x6e, 0x05, 0x06, 0x11, 0x05, 0x60, 0x26, 0x6b, 0xa1, 0x10, 0x8f, 0x5e, 0xd1, 0x57, 0xda, 0xfa], rfl⟩
  else sampleSha bytes

def shelfEnv : Env := ⟨shelfSha, fun _ => true, fun _ => []⟩

def plainRow (n : Fin (2^64)) : Json := .obj (sampleRow n)

private theorem plainRow_fits {tail : Option Tail} {file : Bytes} (n : Fin (2^64))
    (h : (shelfEnv.rowLine (shelfEnv.tailHash tail file).1 (sampleRow n)).all Text.utf8Valid = true) :
    shelfEnv.Fits tail file (plainRow n) where
  normal := ⟨List.pairwise_singleton _ _, ⟨trivial, trivial⟩⟩
  text ms hms line hline := by
    obtain rfl : sampleRow n = ms := Json.obj.inj hms
    rw [hline] at h
    exact h
  depth := by
    change max 0 0 + 1 ≤ 127
    decide

/-- The second row is appended after a part of it. -/
theorem appends_exact_sample : ∃ line next,
    shelfEnv.append none (shelfFirst ++ shelfSecond.take 5) (plainRow 2) = some (line, next) ∧
      line = newline :: shelfSecond ∧
      shelfEnv.Exact (shelfFirst ++ shelfSecond.take 5) line (plainRow 2) := by
  have hline : (shelfEnv.append none (shelfFirst ++ shelfSecond.take 5) (plainRow 2)).map Prod.fst =
      some (newline :: shelfSecond) := by decide +kernel
  obtain ⟨⟨line, next⟩, happ, rfl⟩ := Option.map_eq_some_iff.mp hline
  have hok : shelfEnv.Meets ⟨shelfFirst ++ shelfSecond.take 5, fun _ => none⟩
      (.append 0 (plainRow 2)) := ⟨plainRow_fits 2 (by decide +kernel), fun t ht => nomatch ht⟩
  exact ⟨_, next, happ, rfl, appends_exact shelfEnv _ .start 0 (plainRow 2) hok happ⟩

/-- A row nested deeper than the reader follows is not read back, and the next row of its writer
follows a row no reader knows. -/
theorem deep_row_lost : (¬∀ env file s writer row line next,
    (Env.shelf env file).Runs env.Lawful s → env.Lawful s (.append writer row) →
      env.append (s.tails writer) s.file row = some (line, next) → env.Exact s.file line row) ∧
    ∃ line next, shelfEnv.append none [] deepRow = some (line, next) ∧
      (shelfEnv.append (some next) line (plainRow 1)).map (fun p =>
        (shelfEnv.readChain (line ++ p.1)).brokenAt) = some (some 2) := by
  have hline : (shelfEnv.append none [] deepRow).map Prod.fst = some deepFile := by decide +kernel
  obtain ⟨⟨line, next⟩, happ, rfl⟩ := Option.map_eq_some_iff.mp hline
  have hnormal : ∀ n, (nested n).Normal := by
    intro n
    induction n with
    | zero => trivial
    | succ n ih => exact ⟨ih, trivial⟩
  constructor
  · intro hclaim
    have hrow : shelfEnv.IsRow none [] deepRow := by
      refine ⟨⟨List.pairwise_singleton _ _, hnormal 126, trivial⟩, fun ms hms text htext => ?_⟩
      have hutf8 : (shelfEnv.rowLine genesis [(ascii "n", nested 126)]).all Text.utf8Valid = true := by
        decide +kernel
      obtain rfl := Json.obj.inj hms
      rw [show shelfEnv.rowLine genesis _ = _ from htext] at hutf8
      exact hutf8
    have hexact := hclaim shelfEnv [] ⟨[], fun _ => none⟩ 0 deepRow _ next .start
      ⟨hrow, fun t ht => nomatch ht⟩ happ
    obtain ⟨ms, -, hwhole⟩ := hexact.whole
    have hrows : (shelfEnv.readChain ([] ++ deepFile)).rows.length = 0 := by decide +kernel
    rw [show shelfEnv.readChain ([] ++ deepFile) = _ from hwhole] at hrows
    simp [ChainRead.plus] at hrows
  · refine ⟨_, next, happ, ?_⟩
    have hboth : (shelfEnv.append none [] deepRow).bind (fun p =>
        (shelfEnv.append (some p.2) p.1 (plainRow 1)).map fun q =>
          (shelfEnv.readChain (p.1 ++ q.1)).brokenAt) = some (some 2) := by decide +kernel
    rwa [happ] at hboth

end PulseNull.Probe
