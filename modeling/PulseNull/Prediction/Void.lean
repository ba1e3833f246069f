import PulseNull.Json.Tree

/-! `predictions.json` at boot: every open prediction is closed as void, the rest is written back as
it was read. -/
namespace PulseNull.Prediction
open JsonTree

variable {N : Type}

/-- `MAX_PREDICTIONS_BYTES`. -/
def maxPredictionsBytes : ℕ := 8 * 1024 * 1024

def voidExplanation : Bytes := Text.ascii "voided at Phase 0: free-form prediction with no checkable referent"

def predictionsKey : Bytes := Text.ascii "predictions"
def resolutionKey : Bytes := Text.ascii "resolution"
def resolvedAtKey : Bytes := Text.ascii "resolved_at"

/-- The text codec of JSON values. `scan` gives the fields of an object in the order of the text,
`accepts` tells whether a text is a `PredictionStackSnapshot`, `reread` is what a written number is read
back as. -/
structure Codec (N : Type) where
  accepts : Bytes → Bool
  scan : Bytes → Option (JsonTree N)
  write : JsonTree N → Bytes
  reread : N → N
  zero : N

namespace Codec

/-- A value as the code holds it: its objects are maps in key order. -/
def read (codec : Codec N) (text : Bytes) : Option (JsonTree N) := (codec.scan text).map sort

/-- A written tree that can be read is read as it is, up to its numbers. -/
def Lawful (codec : Codec N) : Prop :=
  ∀ doc back, codec.scan (codec.write doc) = some back → back = mapNum codec.reread doc

end Codec

/-- What stands at the path of the store. -/
inductive Stored where
  | missing
  | regular (content : Bytes)
  | irregular
  deriving DecidableEq

inductive Fault where
  | stat
  | lock
  | unreadable
  | notASnapshot
  | notJson
  | toValue
  | entry (message : Bytes)
  | write

/-- One call of `try_lock`. -/
inductive Attempt where
  | locked
  | wouldBlock
  | failed
  deriving DecidableEq

/-- How the calls of one run end: `attempts` are those at the lock before the deadline, `late` is the one
at it, `now` is the printed time. -/
structure Host where
  stats : Bool
  opensLock : Bool
  attempts : List Attempt
  late : Attempt
  reads : Bool
  resolutionToValue : Bool
  now : Option Bytes
  toString : Bool
  replaces : Bool

def tryLock : List Attempt → Attempt → Attempt
  | [], late => late
  | .wouldBlock :: rest, late => tryLock rest late
  | attempt :: _, _ => attempt

def Host.lock (host : Host) : Attempt := tryLock host.attempts host.late

/-- `read_bounded`: a regular file within the bound. -/
def readBounded (host : Host) : Stored → Except Fault (Option Bytes)
  | .missing => .ok none
  | .irregular => .error .unreadable
  | .regular content =>
    if host.reads && content.length ≤ maxPredictionsBytes then .ok (some content) else .error .unreadable

/-- The resolution of a void prediction, as a map value. -/
def voidResolution (zero : N) : JsonTree N :=
  .obj [(Text.ascii "actual", .str (Text.ascii "void")), (Text.ascii "direction", .str (Text.ascii "void")),
    (Text.ascii "insight", .str voidExplanation), (Text.ascii "surprise", .num zero)]

def pending (entry : Fields N) : Bool := (get resolutionKey entry).all isNull

def notAnObject (index : ℕ) : Bytes :=
  Text.ascii "predictions.json: prediction #" ++ Text.decimal index ++
    Text.ascii " is not a JSON object; left untouched"

def voidEntry (resolution resolvedAt : JsonTree N) (entry : Fields N) : Fields N :=
  put resolvedAtKey resolvedAt (put resolutionKey resolution entry)

/-- The edit of the entries from `index` on, with the number of those that it voids. -/
def voidEntries (resolution resolvedAt : JsonTree N) : ℕ → List (JsonTree N) → Except Fault (List (JsonTree N) × ℕ)
  | _, [] => .ok ([], 0)
  | index, prediction :: rest =>
    match prediction.asObject with
    | none => .error (.entry (notAnObject index))
    | some entry =>
      match voidEntries resolution resolvedAt (index + 1) rest with
      | .error fault => .error fault
      | .ok (edited, voided) =>
        if pending entry then .ok (.obj (voidEntry resolution resolvedAt entry) :: edited, voided + 1)
        else .ok (prediction :: edited, voided)

/-- `doc.get_mut("predictions")` as an array. -/
def predictions (doc : JsonTree N) : Option (List (JsonTree N)) :=
  doc.asObject.bind fun fields => (get predictionsKey fields).bind asArray

def setPredictions (items : List (JsonTree N)) (doc : JsonTree N) : JsonTree N :=
  .obj (put predictionsKey (.arr items) (doc.asObject.getD []))

def voidDocument (resolution resolvedAt : JsonTree N) (doc : JsonTree N) : Except Fault (JsonTree N × ℕ) :=
  match predictions doc with
  | none => .ok (doc, 0)
  | some items =>
    match voidEntries resolution resolvedAt 0 items with
    | .error fault => .error fault
    | .ok (edited, voided) => .ok (setPredictions edited doc, voided)

/-- The edit of a content that was read. -/
def edit (codec : Codec N) (host : Host) (content : Bytes) : Except Fault (JsonTree N × ℕ) :=
  if !codec.accepts content then .error .notASnapshot
  else
    match codec.read content with
    | none => .error .notJson
    | some doc =>
      if !host.resolutionToValue then .error .toValue
      else
        match host.now with
        | none => .error .toValue
        | some now => voidDocument (voidResolution codec.zero) (.str now) doc

/-- `write_atomic`: the rename is the last step. -/
def writeAtomic (host : Host) (content : Bytes) (file : Stored) : Bool × Stored :=
  if host.replaces then (true, .regular content) else (false, file)

/-- `void_open_predictions`: the result, and the file after it. -/
def voidOpenPredictions (codec : Codec N) (host : Host) (file : Stored) : Except Fault ℕ × Stored :=
  if !host.stats then (.error .stat, file)
  else if file = .missing then (.ok 0, file)
  else if !host.opensLock then (.error .lock, file)
  else
    match host.lock with
    | .wouldBlock => (.ok 0, file)
    | .failed => (.error .lock, file)
    | .locked =>
      match readBounded host file with
      | .error fault => (.error fault, file)
      | .ok none => (.ok 0, file)
      | .ok (some content) =>
        match edit codec host content with
        | .error fault => (.error fault, file)
        | .ok (doc, voided) =>
          if voided = 0 then (.ok 0, file)
          else if !host.toString then (.error .write, file)
          else
            match writeAtomic host (codec.write doc) file with
            | (true, file') => (.ok voided, file')
            | (false, file') => (.error .write, file')

/-! What a run may change. -/

def isPending (prediction : JsonTree N) : Bool := prediction.asObject.any pending

/-- An entry before and after: an open one differs in `resolution` and `resolved_at` only. -/
def EntryFrame (zero : N) (now : Bytes) (before after : JsonTree N) : Prop :=
  if isPending before then
    ∃ fields fields', before = .obj fields ∧ after = .obj fields' ∧ after ≠ before ∧
      get resolutionKey fields' = some (voidResolution zero) ∧ get resolvedAtKey fields' = some (.str now) ∧
      ∀ key, key ≠ resolutionKey → key ≠ resolvedAtKey → get key fields' = get key fields
  else after = before

/-- A document before and after: the entries in their order, and nothing else of it changed. -/
structure DocumentFrame (zero : N) (now : Bytes) (voided : ℕ) (before after : JsonTree N) : Prop where
  ordered : after.Sorted
  entries : ∃ fields fields' items items', before = .obj fields ∧ after = .obj fields' ∧
    keys fields' = keys fields ∧ (∀ key, key ≠ predictionsKey → get key fields' = get key fields) ∧
    get predictionsKey fields = some (.arr items) ∧ get predictionsKey fields' = some (.arr items') ∧
    List.Forall₂ (EntryFrame zero now) items items' ∧ voided = items.countP isPending

/-- The file after a run that counts `voided`. -/
def FileFrame (codec : Codec N) (host : Host) (voided : ℕ) (before after : Stored) : Prop :=
  (voided = 0 ∧ after = before) ∨
    ∃ content doc doc' now, before = .regular content ∧ codec.read content = some doc ∧ host.now = some now ∧
      after = .regular (codec.write doc') ∧ DocumentFrame codec.zero now voided doc doc' ∧ 0 < voided ∧
      ∀ back, codec.read (codec.write doc') = some back → back = mapNum codec.reread doc'

/-- A file that no later run changes, whatever its calls give. -/
def Closed (codec : Codec N) (file : Stored) : Prop :=
  ∀ later, (voidOpenPredictions codec later file).2 = file ∧
    ∀ voided, (voidOpenPredictions codec later file).1 = .ok voided → voided = 0

section edit
variable {zero : N} {now : Bytes}

private theorem keys_apart : resolutionKey ≠ resolvedAtKey := by decide

theorem sorted_voidResolution (zero : N) : (voidResolution zero).Sorted := by
  have hk : [Text.ascii "actual", Text.ascii "direction", Text.ascii "insight", Text.ascii "surprise"].Pairwise
      (· < ·) := by decide
  exact ⟨hk, trivial, trivial, trivial, trivial, trivial⟩

theorem get_resolution_voidEntry (resolution resolvedAt : JsonTree N) (entry : Fields N) :
    get resolutionKey (voidEntry resolution resolvedAt entry) = some resolution := by
  rw [voidEntry, get_put_ne keys_apart, get_put_self]

theorem pending_voidEntry (zero : N) (resolvedAt : JsonTree N) (entry : Fields N) :
    pending (voidEntry (voidResolution zero) resolvedAt entry) = false := by
  rw [pending, get_resolution_voidEntry]
  rfl

theorem voidEntry_frame {entry : Fields N} (h : pending entry = true) :
    EntryFrame zero now (.obj entry) (.obj (voidEntry (voidResolution zero) (.str now) entry)) := by
  unfold EntryFrame
  rw [if_pos (show isPending (.obj entry) = true from h)]
  refine ⟨entry, _, rfl, rfl, ?_, get_resolution_voidEntry .., get_put_self, ?_⟩
  · intro he
    have hp := pending_voidEntry zero (.str now) entry
    rw [JsonTree.obj.inj he, h] at hp
    cases hp
  · intro key hr ht
    rw [voidEntry, get_put_ne ht, get_put_ne hr]

theorem voidEntries_spec {items edited : List (JsonTree N)} {index voided : ℕ}
    (h : voidEntries (voidResolution zero) (.str now) index items = .ok (edited, voided)) :
    List.Forall₂ (EntryFrame zero now) items edited ∧ voided = items.countP isPending ∧
      (SortedItems items → SortedItems edited) ∧ ∀ e ∈ edited, isPending e = false := by
  induction items generalizing index edited voided with
  | nil =>
    cases h
    exact ⟨.nil, rfl, id, by simp⟩
  | cons prediction rest ih =>
    unfold voidEntries at h
    split at h
    · cases h
    next entry he =>
    obtain rfl := asObject_eq_some.mp he
    split at h
    · cases h
    next edited' voided' hr =>
    obtain ⟨hf, hn, hs, hp⟩ := ih hr
    split at h
    · next hpend =>
      cases h
      have hq : isPending (.obj entry) = true := hpend
      refine ⟨.cons (voidEntry_frame hpend) hf, ?_, fun h => ⟨?_, hs h.2⟩, ?_⟩
      · rw [List.countP_cons_of_pos hq, hn]
      · exact ⟨h.1.1.put.put, (h.1.2.put (sorted_voidResolution zero)).put trivial⟩
      · exact List.forall_mem_cons.mpr ⟨pending_voidEntry .., hp⟩
    · next hpend =>
      cases h
      have hq : isPending (.obj entry) = false := Bool.eq_false_iff.mpr hpend
      refine ⟨.cons ?_ hf, ?_, fun h => ⟨h.1, hs h.2⟩, List.forall_mem_cons.mpr ⟨hq, hp⟩⟩
      · rw [EntryFrame, if_neg (by simp [hq])]
      · rw [List.countP_cons_of_neg (by simp [hq]), hn]

/-- No entry of the document is open. -/
def Done (doc : JsonTree N) : Prop := ∀ items, predictions doc = some items → ∀ e ∈ items, isPending e = false

theorem predictions_eq_some {doc : JsonTree N} {items : List (JsonTree N)} (h : predictions doc = some items) :
    ∃ fields, doc = .obj fields ∧ get predictionsKey fields = some (.arr items) := by
  obtain ⟨fields, hf, hb⟩ := Option.bind_eq_some_iff.mp h
  obtain ⟨v, hv, ha⟩ := Option.bind_eq_some_iff.mp hb
  exact ⟨fields, asObject_eq_some.mp hf, by rw [hv, asArray_eq_some.mp ha]⟩

theorem predictions_setPredictions (items : List (JsonTree N)) (doc : JsonTree N) :
    predictions (setPredictions items doc) = some items := by
  simp [predictions, setPredictions, asObject, asArray]

theorem voidDocument_cases {doc doc' : JsonTree N} {voided : ℕ}
    (h : voidDocument (voidResolution zero) (.str now) doc = .ok (doc', voided)) :
    (predictions doc = none ∧ doc' = doc ∧ voided = 0) ∨
      ∃ items edited, predictions doc = some items ∧ doc' = setPredictions edited doc ∧
        voidEntries (voidResolution zero) (.str now) 0 items = .ok (edited, voided) := by
  unfold voidDocument at h
  split at h
  · next hn =>
    cases h
    exact .inl ⟨hn, rfl, rfl⟩
  next items hi =>
  split at h
  · cases h
  next edited voided' hv =>
  cases h
  exact .inr ⟨items, edited, hi, rfl, hv⟩

/-- A document without open entries gives no count but 0. -/
theorem voidDocument_done {doc doc' : JsonTree N} {voided : ℕ} (hd : Done doc)
    (h : voidDocument (voidResolution zero) (.str now) doc = .ok (doc', voided)) : voided = 0 := by
  obtain ⟨-, -, rfl⟩ | ⟨items, edited, hi, -, hv⟩ := voidDocument_cases h
  · rfl
  · rw [(voidEntries_spec hv).2.1, List.countP_eq_zero]
    intro e he
    simp [hd items hi e he]

/-- And a count of 0 means that none was open. -/
theorem done_of_voidDocument {doc doc' : JsonTree N}
    (h : voidDocument (voidResolution zero) (.str now) doc = .ok (doc', 0)) : Done doc := by
  intro items hi e he
  obtain ⟨hn, -, -⟩ | ⟨items', edited, hi', -, hv⟩ := voidDocument_cases h
  · rw [hn] at hi
    cases hi
  · have hc := List.countP_eq_zero.mp (voidEntries_spec hv).2.1.symm
    rw [hi'] at hi
    cases hi
    simpa using hc e he

theorem voidDocument_frame {doc doc' : JsonTree N} {voided : ℕ} (hs : doc.Sorted) (hpos : 0 < voided)
    (h : voidDocument (voidResolution zero) (.str now) doc = .ok (doc', voided)) :
    DocumentFrame zero now voided doc doc' ∧ Done doc' := by
  obtain ⟨-, -, rfl⟩ | ⟨items, edited, hi, rfl, hv⟩ := voidDocument_cases h
  · cases hpos
  obtain ⟨hf, hn, hsort, hp⟩ := voidEntries_spec hv
  obtain ⟨fields, rfl, hg⟩ := predictions_eq_some hi
  refine ⟨⟨⟨hs.1.put, hs.2.put (hsort (hs.2.get hg))⟩, ?_⟩, ?_⟩
  · exact ⟨fields, _, items, edited, rfl, rfl, keys_put hs.1 (Option.isSome_iff_exists.mpr ⟨_, hg⟩),
      fun key hk => get_put_ne hk, hg, get_put_self, hf, hn⟩
  · intro items' hi' e he
    rw [predictions_setPredictions] at hi'
    cases hi'
    exact hp e he

end edit

theorem isNull_mapNum {f : N → N} (v : JsonTree N) : (mapNum f v).isNull = v.isNull := by
  cases v <;> rfl

theorem isPending_mapNum {f : N → N} (v : JsonTree N) : isPending (mapNum f v) = isPending v := by
  cases v with
  | obj fields =>
    show pending (mapFields f fields) = pending fields
    rw [pending, pending, get_mapFields]
    cases get resolutionKey fields with
    | none => rfl
    | some r => exact isNull_mapNum r
  | _ => rfl

theorem Done.mapNum {f : N → N} {doc : JsonTree N} (h : Done doc) : Done (JsonTree.mapNum f doc) := by
  intro items hi e he
  obtain ⟨fields', hobj, hg⟩ := predictions_eq_some hi
  cases doc with
  | obj fields =>
    cases hobj
    rw [get_mapFields] at hg
    obtain ⟨v, hv, hm⟩ := Option.map_eq_some_iff.mp hg
    cases v with
    | arr items' =>
      cases hm
      rw [mapItems_eq] at he
      obtain ⟨e', he', rfl⟩ := List.mem_map.mp he
      rw [isPending_mapNum]
      exact h items' (by simp [predictions, asObject, hv, asArray]) e' he'
    | _ => cases hm
  | _ => cases hobj

section runs
variable {codec : Codec N} {host : Host} {file : Stored}

theorem Codec.sorted_read {content : Bytes} {doc : JsonTree N} (h : codec.read content = some doc) :
    doc.Sorted := by
  obtain ⟨raw, -, rfl⟩ := Option.map_eq_some_iff.mp h
  exact sorted_sort raw

/-- What was written is a map value, and it is read as one. -/
theorem Codec.Lawful.read_write (lawful : codec.Lawful) {doc back : JsonTree N} (hs : doc.Sorted)
    (h : codec.read (codec.write doc) = some back) : back = JsonTree.mapNum codec.reread doc := by
  obtain ⟨raw, hr, rfl⟩ := Option.map_eq_some_iff.mp h
  rw [lawful doc raw hr]
  exact hs.mapNum.sort_eq

theorem edit_eq_ok {content : Bytes} {doc' : JsonTree N} {voided : ℕ}
    (h : edit codec host content = .ok (doc', voided)) :
    ∃ doc now, codec.read content = some doc ∧ host.now = some now ∧
      voidDocument (voidResolution codec.zero) (.str now) doc = .ok (doc', voided) := by
  unfold edit at h
  split at h
  · cases h
  split at h
  · cases h
  next doc hd =>
  split at h
  · cases h
  split at h
  · cases h
  next now hn => exact ⟨doc, now, hd, hn, h⟩

theorem readBounded_eq_ok {content : Option Bytes} (h : readBounded host file = .ok content) :
    (file = .missing ∧ content = none) ∨ ∃ bytes, file = .regular bytes ∧ content = some bytes := by
  cases file with
  | missing => exact .inl ⟨rfl, (Except.ok.inj h).symm⟩
  | irregular => cases h
  | regular bytes =>
    simp only [readBounded] at h
    split at h
    · exact .inr ⟨bytes, rfl, (Except.ok.inj h).symm⟩
    · cases h

/-- All that a run can do. -/
theorem run_cases (codec : Codec N) (host : Host) (file : Stored) :
    (∃ fault, voidOpenPredictions codec host file = (.error fault, file)) ∨
    (voidOpenPredictions codec host file = (.ok 0, file) ∧ (host.lock = .locked → file = .missing ∨
      ∃ content doc', file = .regular content ∧ edit codec host content = .ok (doc', 0))) ∨
    ∃ content doc' voided, file = .regular content ∧ edit codec host content = .ok (doc', voided) ∧ 0 < voided ∧
      voidOpenPredictions codec host file = (.ok voided, .regular (codec.write doc')) := by
  unfold voidOpenPredictions
  split
  · exact .inl ⟨_, rfl⟩
  split
  · next hm => exact .inr (.inl ⟨rfl, fun _ => .inl hm⟩)
  split
  · exact .inl ⟨_, rfl⟩
  cases hl : host.lock with
  | wouldBlock => exact .inr (.inl ⟨rfl, fun h => by cases h⟩)
  | failed => exact .inl ⟨_, rfl⟩
  | locked =>
    cases hr : readBounded host file with
    | error fault => exact .inl ⟨fault, rfl⟩
    | ok content =>
      obtain ⟨hm, rfl⟩ | ⟨bytes, hf, rfl⟩ := readBounded_eq_ok hr
      · exact .inr (.inl ⟨rfl, fun _ => .inl hm⟩)
      cases he : edit codec host bytes with
      | error fault => exact .inl ⟨fault, by simp only [he]⟩
      | ok edited =>
        obtain ⟨doc', voided⟩ := edited
        by_cases h0 : voided = 0
        · subst h0
          exact .inr (.inl ⟨by simp only [he, if_true], fun _ => .inr ⟨bytes, doc', hf, he⟩⟩)
        · cases hs : host.toString with
          | false => exact .inl ⟨.write, by simp [he, h0]⟩
          | true =>
            cases hw : host.replaces with
            | false => exact .inl ⟨.write, by simp [he, h0, writeAtomic, hw]⟩
            | true =>
              exact .inr (.inr ⟨bytes, doc', voided, hf, he, Nat.pos_of_ne_zero h0,
                by simp [he, h0, writeAtomic, hw]⟩)

theorem closed_missing : Closed codec .missing := by
  intro later
  obtain ⟨fault, he⟩ | ⟨he, -⟩ | ⟨content, doc', voided, hf, -⟩ := run_cases codec later .missing
  · exact ⟨by rw [he], fun voided h => by rw [he] at h; cases h⟩
  · exact ⟨by rw [he], fun voided h => by rw [he] at h; exact (Except.ok.inj h).symm⟩
  · cases hf

theorem closed_of_done {content : Bytes} (h : ∀ doc, codec.read content = some doc → Done doc) :
    Closed codec (.regular content) := by
  intro later
  obtain ⟨fault, he⟩ | ⟨he, -⟩ | ⟨content', doc', voided, hf, hed, hpos, -⟩ :=
    run_cases codec later (.regular content)
  · exact ⟨by rw [he], fun voided h => by rw [he] at h; cases h⟩
  · exact ⟨by rw [he], fun voided h => by rw [he] at h; exact (Except.ok.inj h).symm⟩
  · cases hf
    obtain ⟨doc, now, hd, -, hv⟩ := edit_eq_ok hed
    exact absurd (voidDocument_done (h doc hd) hv) hpos.ne'

/-- A failed run leaves the file; a run that returns a count has closed that many entries and changed
nothing else; a run that had the lock leaves nothing for a later one. -/
theorem void_frames (codec : Codec N) (lawful : codec.Lawful) (host : Host) (file : Stored) :
    (∀ fault, (voidOpenPredictions codec host file).1 = .error fault →
      (voidOpenPredictions codec host file).2 = file) ∧
    ∀ voided, (voidOpenPredictions codec host file).1 = .ok voided →
      FileFrame codec host voided file (voidOpenPredictions codec host file).2 ∧
      (host.lock = .locked → Closed codec (voidOpenPredictions codec host file).2) := by
  obtain ⟨fault, he⟩ | ⟨he, hd⟩ | ⟨content, doc', n, hf, hed, hpos, he⟩ := run_cases codec host file
  · rw [he]
    exact ⟨fun _ _ => rfl, fun voided h => by cases h⟩
  · rw [he]
    refine ⟨fun _ _ => rfl, fun voided h => ⟨.inl ⟨(Except.ok.inj h).symm, rfl⟩, fun hl => ?_⟩⟩
    obtain rfl | ⟨content, doc', rfl, hed⟩ := hd hl
    · exact closed_missing
    · obtain ⟨doc, now, hr, -, hv⟩ := edit_eq_ok hed
      refine closed_of_done fun back hb => ?_
      rw [hr] at hb
      cases hb
      exact done_of_voidDocument hv
  · rw [he]
    obtain ⟨doc, now, hr, hn, hv⟩ := edit_eq_ok hed
    obtain ⟨hframe, hdone⟩ := voidDocument_frame (Codec.sorted_read hr) hpos hv
    have hback : ∀ back, codec.read (codec.write doc') = some back → back = mapNum codec.reread doc' :=
      fun back hb => lawful.read_write hframe.ordered hb
    refine ⟨fun fault h => (by cases h), fun voided h => ?_⟩
    cases h
    refine ⟨.inr ⟨content, doc, doc', now, hf, hr, hn, rfl, hframe, hpos, hback⟩, fun _ => ?_⟩
    refine closed_of_done fun back hb => ?_
    rw [hback back hb]
    exact hdone.mapNum

end runs

/-! A store with one open prediction, in the field order of the writer; numbers as their texts. -/

private def beforeText : Bytes := Text.ascii <|
  "\x7b\"predictions\":[\x7b\"id\":\"p-1\",\"timescale\":\"cycle\",\"content\":\"x\",\"confidence\":0.5," ++
  "\"created_at\":\"2026-10-01T00:00:00Z\",\"resolved_at\":null,\"resolution\":null\x7d],\"errors\":[]\x7d"

private def afterText : Bytes := Text.ascii <|
  "\x7b\"errors\":[],\"predictions\":[\x7b\"confidence\":0.5,\"content\":\"x\"," ++
  "\"created_at\":\"2026-10-01T00:00:00Z\",\"id\":\"p-1\",\"resolution\":\x7b\"actual\":\"void\"," ++
  "\"direction\":\"void\",\"insight\":\"voided at Phase 0: free-form prediction with no checkable referent\"," ++
  "\"surprise\":0.0\x7d,\"resolved_at\":\"2026-10-03T00:00:00Z\",\"timescale\":\"cycle\"\x7d]\x7d"

private def text (s : String) : JsonTree Bytes := .str (Text.ascii s)

private def beforeFields : Fields Bytes :=
  [(predictionsKey, .arr [.obj [(Text.ascii "id", text "p-1"), (Text.ascii "timescale", text "cycle"),
      (Text.ascii "content", text "x"), (Text.ascii "confidence", .num (Text.ascii "0.5")),
      (Text.ascii "created_at", text "2026-10-01T00:00:00Z"), (resolvedAtKey, .null), (resolutionKey, .null)]]),
    (Text.ascii "errors", .arr [])]

private def afterFields : Fields Bytes :=
  [(Text.ascii "errors", .arr []),
    (predictionsKey, .arr [.obj [(Text.ascii "confidence", .num (Text.ascii "0.5")),
      (Text.ascii "content", text "x"), (Text.ascii "created_at", text "2026-10-01T00:00:00Z"), (Text.ascii "id", text "p-1"),
      (resolutionKey, voidResolution (Text.ascii "0.0")), (resolvedAtKey, text "2026-10-03T00:00:00Z"),
      (Text.ascii "timescale", text "cycle")]])]

open Classical in
/-- The codec at these two texts. -/
private noncomputable def sampleCodec : Codec Bytes where
  accepts content := decide (content = beforeText ∨ content = afterText)
  scan content :=
    if content = beforeText then some (.obj beforeFields)
    else if content = afterText then some (.obj afterFields)
    else none
  write doc := if doc = .obj afterFields then afterText else []
  reread n := n
  zero := Text.ascii "0.0"

private def sampleHost : Host where
  stats := true
  opensLock := true
  attempts := [.wouldBlock]
  late := .locked
  reads := true
  resolutionToValue := true
  now := some (Text.ascii "2026-10-03T00:00:00Z")
  toString := true
  replaces := true

private theorem texts_apart : afterText ≠ beforeText ∧ [] ≠ beforeText ∧ [] ≠ afterText ∧
    beforeText.length ≤ maxPredictionsBytes := by
  have hafter : afterText[2]? = some 101 := by
    rw [afterText, Text.ascii, String.toList_append, String.toList_append, String.toList_append, List.append_assoc,
      List.append_assoc, String.toList_ofList]
    rfl
  have hbefore : beforeText[2]? = some 112 := by
    rw [beforeText, Text.ascii, String.toList_append, String.toList_ofList]
    rfl
  refine ⟨fun h => ?_, fun h => ?_, fun h => ?_, ?_⟩
  · rw [h, hbefore] at hafter
    exact absurd hafter (by decide)
  · rw [← h] at hbefore
    exact nomatch hbefore
  · rw [← h] at hafter
    exact nomatch hafter
  · rw [beforeText, Text.ascii, List.length_map, String.toList_append, List.length_append, String.toList_ofList,
      String.toList_ofList]
    decide

private theorem scan_beforeText : sampleCodec.scan beforeText = some (.obj beforeFields) := by
  simp only [sampleCodec, if_true]

private theorem scan_afterText : sampleCodec.scan afterText = some (.obj afterFields) := by
  simp only [sampleCodec, if_neg texts_apart.1, if_true]

private theorem write_afterFields : sampleCodec.write (.obj afterFields) = afterText := if_pos rfl

private theorem sampleCodec_lawful : sampleCodec.Lawful := by
  intro doc back h
  by_cases hd : doc = .obj afterFields
  · subst hd
    rw [write_afterFields, scan_afterText] at h
    exact (Option.some.inj h).symm
  · have hn : sampleCodec.scan (sampleCodec.write doc) = none := by
      simp only [sampleCodec, if_neg hd, if_neg texts_apart.2.1, if_neg texts_apart.2.2.1]
    rw [hn] at h
    cases h

private theorem edit_sample : edit sampleCodec sampleHost beforeText = .ok (.obj afterFields, 1) := by
  have ha : sampleCodec.accepts beforeText = true := by simp [sampleCodec]
  have hr : sampleCodec.read beforeText = some (sort (.obj beforeFields)) := by
    rw [Codec.read, scan_beforeText, Option.map_some]
  simp only [edit, ha, hr]
  rfl

private theorem voidOpenPredictions_sample :
    voidOpenPredictions sampleCodec sampleHost (.regular beforeText) = (.ok 1, .regular afterText) := by
  have hb : readBounded sampleHost (.regular beforeText) = .ok (some beforeText) := by
    simp [readBounded, sampleHost, texts_apart.2.2.2]
  rw [voidOpenPredictions, show sampleHost.lock = .locked from rfl]
  simp only [hb, edit_sample, write_afterFields]
  rfl

theorem void_frames_sample : sampleCodec.Lawful ∧
    FileFrame sampleCodec sampleHost 1 (.regular beforeText) (.regular afterText) ∧
    Closed sampleCodec (.regular afterText) := by
  obtain ⟨-, hok⟩ := void_frames sampleCodec sampleCodec_lawful sampleHost (.regular beforeText)
  rw [voidOpenPredictions_sample] at hok
  obtain ⟨hf, hc⟩ := hok 1 rfl
  exact ⟨sampleCodec_lawful, hf, hc rfl⟩

/-- The fields of the file do not stay in their order: a store is written in key order. -/
theorem fields_reordered : sampleCodec.scan beforeText = some (.obj beforeFields) ∧
    voidOpenPredictions sampleCodec sampleHost (.regular beforeText) = (.ok 1, .regular afterText) ∧
    sampleCodec.scan afterText = some (.obj afterFields) ∧
    keys beforeFields = [Text.ascii "predictions", Text.ascii "errors"] ∧
    keys afterFields = [Text.ascii "errors", Text.ascii "predictions"] := by
  exact ⟨scan_beforeText, voidOpenPredictions_sample, scan_afterText, rfl, rfl⟩

end PulseNull.Prediction
