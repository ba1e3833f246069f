import PulseNull.Oneself.AppendOnly

/-! Streams that were open when the daemon died, and the closes that say they were lost. -/
namespace PulseNull.Oneself
open Text (ascii newline Complete)
variable {env : Env}

/-- The close of a stream nobody closed. -/
def lostClose (stream : Bytes) : ReceiptEvent :=
  .close ⟨stream, .lost, .none, [], [], none, false, none, none, none, none, 0⟩

/-- Appends that all succeed. -/
def Store.appendAll (env : Env) (s : Store) : List (ReceiptEvent × AppendIo) → Option Store
  | [] => some s
  | (event, io) :: rest =>
    match s.append env event io with
    | (s, .ok _) => s.appendAll env rest
    | (_, .error _) => none

/-! What the file says of its streams. -/

/-- What an event does to the open streams. -/
def ReceiptEvent.track (streams : List Bytes) : ReceiptEvent → List Bytes
  | .opened o => streams ++ [o.stream]
  | .close c => streams.erase c.stream
  | _ => streams

def ReceiptEvent.opens (event : ReceiptEvent) (stream : Bytes) : Bool :=
  match event with
  | .opened o => o.stream = stream
  | _ => false

def ReceiptEvent.closes (event : ReceiptEvent) (stream : Bytes) : Bool :=
  match event with
  | .close c => c.stream = stream
  | _ => false

/-- Each open of the stream with a close of it that comes later and is not taken by a later open: the
closes left over, and the opens left over. -/
def pairing (stream : Bytes) : List ReceiptEvent → Nat × Nat
  | [] => (0, 0)
  | event :: later =>
    let (spare, unmatched) := pairing stream later
    if event.opens stream then (spare - 1, if spare = 0 then unmatched + 1 else unmatched)
    else if event.closes stream then (spare + 1, unmatched)
    else (spare, unmatched)

/-- The opens of a stream that no later close matches. -/
def unmatched (stream : Bytes) (events : List ReceiptEvent) : Nat := (pairing stream events).2

/-- The event `orphan_streams` reads in a line. -/
def Env.noteOf (env : Env) (line : Bytes) : Option ReceiptEvent :=
  if line = [] ∨ Text.utf8Valid line = false then none
  else match Json.parse env.floatInRange line with
    | none => none
    | some value => match Row.ofValue value with
      | .error _ => none
      | .ok row => (ReceiptEvent.ofValue row.e).toOption

theorem orphanStreams_eq (bytes : Bytes) : env.orphanStreams bytes =
    ((Text.lines bytes).filterMap fun l => env.noteOf l.bytes).foldl ReceiptEvent.track [] := by
  unfold Env.orphanStreams
  rw [List.foldl_filterMap]
  congr 1
  funext streams l
  unfold Env.noteOf
  split
  · rfl
  · cases Json.parse env.floatInRange l.bytes with
    | none => rfl
    | some value =>
      cases hrow : Row.ofValue value with
      | error e => simp [hrow]
      | ok row =>
        cases hevent : ReceiptEvent.ofValue row.e with
        | error e => simp [hrow, hevent, Except.toOption]
        | ok event => cases event <;> simp [hrow, hevent, Except.toOption, ReceiptEvent.track]

/-- A row's line is read as its event. -/
theorem checkRow_noteOf {bytes prev : Bytes} {seq : U64} {a : Accepted}
    (h : env.checkRow bytes seq prev = .ok a) : env.noteOf bytes = some a.event := by
  have hne := checkRow_ne_nil h
  obtain ⟨row, event, hr, rfl⟩ := checkRow_eq_ok.mp h
  have hv := hr.value
  unfold Env.fromStr at hv
  split at hv
  · next hu =>
    obtain ⟨w, hw, hn⟩ := Option.map_eq_some_iff.mp hv
    obtain rfl := Json.parse_canonical hr.text hw hn
    unfold Env.noteOf
    rw [if_neg (by simp [hne, hu]), hw]
    simp only [Row.ofValue_toValue (fromStr_normal hr.value).2.1, hr.decoded]
    rfl
  · exact nomatch hv

theorem noteOf_torn {bytes : Bytes} (h : env.validJsonValue bytes = false) :
    env.noteOf bytes = none := by
  unfold Env.noteOf
  split
  · rfl
  · next hu =>
    have hnone : Json.parse env.floatInRange bytes = none := by
      simp only [not_or, Bool.not_eq_false] at hu
      simpa [Env.validJsonValue, Env.fromStr, hu.2] using h
    rw [hnone]

theorem Ledger.notes {buf : Bytes} {rows : List Accepted} (h : Ledger env buf rows) :
    ((Text.lines buf).filterMap fun l => env.noteOf l.bytes) = rows.map Accepted.event := by
  induction h with
  | nil => rfl
  | row h _ hl _ hc _ ih =>
    rw [Text.lines_append_line h.complete hl, List.filterMap_append, List.map_append, ← ih]
    simp [checkRow_noteOf hc]
  | recovered h _ ht _ hj hl _ hc _ ih =>
    rw [Text.lines_append_line (h.complete.append (Text.complete_line _)) hl,
      Text.lines_append_line h.complete ht, List.filterMap_append, List.filterMap_append,
      List.map_append, ← ih]
    simp [checkRow_noteOf hc, noteOf_torn hj]

/-! The streams left open are the opens without a close. -/

theorem track_count (stream : Bytes) (events : List ReceiptEvent) (streams : List Bytes) :
    (events.foldl ReceiptEvent.track streams).count stream =
      unmatched stream events + (streams.count stream - (pairing stream events).1) := by
  unfold unmatched
  induction events generalizing streams with
  | nil => simp [pairing]
  | cons event later ih =>
    rw [List.foldl_cons, ih]
    cases event with
    | opened o =>
      by_cases ho : o.stream = stream
      · simp only [ReceiptEvent.track, pairing, ReceiptEvent.opens, ho, List.count_append,
          List.count_singleton_self, decide_true, if_true]
        split <;> omega
      · simp [ReceiptEvent.track, pairing, ReceiptEvent.opens, ReceiptEvent.closes, ho,
          List.count_append]
    | close c =>
      by_cases hc : c.stream = stream
      · simp only [ReceiptEvent.track, pairing, ReceiptEvent.opens, ReceiptEvent.closes, hc,
          List.count_erase_self, decide_true, if_true, Bool.false_eq_true, if_false]
        omega
      · simp [ReceiptEvent.track, pairing, ReceiptEvent.opens, ReceiptEvent.closes, hc,
          List.count_erase_of_ne (Ne.symm hc)]
    | _ => rfl

/-- The closes of all open streams, in order, leave none. -/
theorem track_lostClose (streams : List Bytes) :
    (streams.map lostClose).foldl ReceiptEvent.track streams = [] := by
  induction streams with
  | nil => rfl
  | cons stream rest ih =>
    rw [List.map_cons, List.foldl_cons]
    simpa [ReceiptEvent.track, lostClose] using ih

/-! The closes are appended. -/

def lostMembers (stream : Bytes) : List (Bytes × Json) :=
  [(ascii "action_class", .str (ascii "none")), (ascii "adapter", .str []),
    (ascii "duration_ms", u64 0), (ascii "fallback", .bool false), (ascii "fence", .null),
    (ascii "folded", .null), (ascii "kind", .str (ascii "close")), (ascii "mailbox_head", .null),
    (ascii "outcome", .str (ascii "lost")), (ascii "provider", .str []), (ascii "stream", .str stream)]

theorem lostClose_toValue (stream : Bytes) :
    (lostClose stream).toValue = .obj (lostMembers stream) := by
  rfl

theorem lostClose_decodes (stream : Bytes) :
    ReceiptEvent.ofValue (lostClose stream).toValue = .ok (lostClose stream) := by
  have htag : Json.splitTag (ascii "kind") (.obj (lostMembers stream)) =
      .ok (ascii "close", .obj ((lostMembers stream).filter fun m => m.1 ≠ ascii "kind")) := by
    rfl
  have hclose : Close.ofValue (.obj ((lostMembers stream).filter fun m => m.1 ≠ ascii "kind")) =
      .ok ⟨stream, .lost, .none, [], [], none, false, none, none, none, none, 0⟩ := by
    rfl
  rw [lostClose_toValue]
  unfold ReceiptEvent.ofValue
  rw [htag]
  simp only [bind, Except.bind]
  rw [if_neg (by decide), if_neg (by decide), if_neg (by decide), if_pos trivial, hclose]
  rfl

/-- A store that is not poisoned appends one line, which reads as the event. -/
theorem append_lostClose {s t : Store} {stream : Bytes} {io : AppendIo} {head : Head}
    (hp : s.poisoned = false) (ha : s.append env (lostClose stream) io = (t, .ok head)) :
    t.poisoned = false ∧ ∃ line, newline ∉ line ∧ t.file = s.file ++ (line ++ [newline]) ∧
      env.noteOf line = some (lostClose stream) := by
  unfold Store.append Store.prepare at ha
  rw [if_pos (by rfl), if_neg (by simp [hp])] at ha
  dsimp only at ha
  unfold Store.writeEvent at ha
  split at ha
  · cases (Prod.mk.inj ha).2
  · next line hline =>
    obtain ⟨a, hencoded, hevent⟩ := encodeLine_encoded hline
    have hnote := checkRow_noteOf hencoded.check
    rw [lostClose_decodes] at hevent
    obtain hevent := Except.ok.inj hevent
    cases hwrite : io.eventWrite with
    | some k =>
      rw [hwrite] at ha
      cases (Prod.mk.inj ha).2
    | none =>
      rw [hwrite] at ha
      simp only [writeAllSync] at ha
      split at ha
      · cases (Prod.mk.inj ha).2
      · obtain rfl := (Prod.mk.inj ha).1
        exact ⟨hp, line, hencoded.noNewline, rfl, hevent ▸ hnote⟩

theorem appendAll_lostClose {s t : Store} {streams : List Bytes} {ios : List AppendIo}
    (hp : s.poisoned = false) (hf : Complete s.file)
    (hlen : streams.length ≤ ios.length)
    (ha : s.appendAll env ((streams.map lostClose).zip ios) = some t) :
    ((Text.lines t.file).filterMap fun l => env.noteOf l.bytes) =
      ((Text.lines s.file).filterMap fun l => env.noteOf l.bytes) ++ streams.map lostClose := by
  induction streams generalizing s ios with
  | nil =>
    obtain rfl := Option.some.inj ha
    simp
  | cons stream rest ih =>
    cases ios with
    | nil => exact absurd hlen (by simp)
    | cons io ios =>
      rw [List.map_cons, List.zip_cons_cons] at ha
      unfold Store.appendAll at ha
      split at ha
      · next u head happend =>
        obtain ⟨hp', line, hline, hfile, hnote⟩ := append_lostClose hp happend
        have hu : Complete u.file := hfile ▸ hf.append (Text.complete_line _)
        rw [ih hp' hu (by simpa using hlen) ha, hfile, Text.lines_append_line hf hline,
          List.filterMap_append]
        simp [hnote]
      · exact nomatch ha

def lostOpen : ReceiptEvent := .opened ⟨ascii "s", ascii "tui", ascii "owner", none, none, none⟩

def lostOpenLine : Bytes := (lossRow 1 (lossHeads.getD 0 []) lostOpen).line

def lostHead : Bytes :=
  ascii "4bec9719b9003bfc9ce471f4b2e3acbf9afeb2c301aa48cadf823d116f63d854"

/-- SHA-256 on the rows of the file and the row of the lost close. -/
def lostSha (bytes : Bytes) : { digest : Bytes // digest.length = 32 } :=
  if bytes = lostOpenLine then
    ⟨[75, 236, 151, 25, 185, 0, 59, 252, 156, 228, 113, 244, 178, 227, 172, 191,
      154, 254, 178, 195, 1, 170, 72, 202, 223, 130, 61, 17, 111, 99, 216, 84], rfl⟩
  else if bytes = (lossRow 2 lostHead (lostClose (ascii "s"))).line then
    ⟨[143, 87, 76, 121, 41, 89, 129, 255, 21, 140, 242, 93, 244, 140, 71, 60,
      17, 121, 104, 213, 239, 32, 133, 160, 105, 209, 23, 99, 144, 34, 219, 138], rfl⟩
  else sampleSha bytes

def lostEnv : Env := ⟨lostSha, fun _ => true⟩

/-- A store on a file with one stream open. -/
def lostStore : Store :=
  ⟨lossFile ++ withNewline lostOpenLine, 2, lostHead, false, 0, none, none⟩

end PulseNull.Oneself
