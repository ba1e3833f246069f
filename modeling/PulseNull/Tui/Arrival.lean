import PulseNull.Json.Cut
import PulseNull.Tui.Client

/-! What the daemon writes arrives: a body of frames, cut into chunks and cut short anywhere, is read as
the events of the frames that came in. -/
namespace PulseNull.Tui
open Text (ascii newline joinLines joinLines_cons joinLines_singleton utf8Valid fromUtf8Lossy)

/-- What the HTTP framework writes for an event whose name and data are each one line, and to keep the
connection alive. -/
structure SseFraming where
  event : Bytes → Bytes → Bytes
  keepAlive : Bytes

/-- A line's bytes: not empty, without a line end. -/
structure Free (line : Bytes) : Prop where
  noLineEnd : ∀ c ∈ line, isLineEnd c = false

def eventLines (name data : Bytes) : List Bytes := [ascii "event: " ++ name, ascii "data: " ++ data]

structure SseFraming.Lawful (f : SseFraming) : Prop where
  event : ∀ name data, Free name → Free data → f.event name data = joinLines (eventLines name data) ++ lf
  keepAlive : f.keepAlive = ascii ":" ++ lf

/-! Blocks of lines. -/

/-- Lines a block is made of. -/
structure Lines (ls : List Bytes) : Prop where
  some : ls ≠ []
  free : ∀ l ∈ ls, Free l ∧ l ≠ []

private theorem Lines.tail {l l' : Bytes} {ls : List Bytes} (h : Lines (l :: l' :: ls)) : Lines (l' :: ls) :=
  ⟨List.cons_ne_nil _ _, fun m hm => h.free m (List.mem_cons_of_mem _ hm)⟩

private theorem position_line {l rest : Bytes} (h : Free l) (hhead : rest.head? ≠ some newline) :
    position lf (l ++ newline :: rest) = (position lf rest).map (· + (l.length + 1)) := by
  induction l with
  | nil =>
    have hno : lf.isPrefixOf (newline :: rest) = false := by
      cases rest with
      | nil => rfl
      | cons c rest =>
        have hc : c ≠ newline := fun he => hhead (congrArg some he)
        simp [lf, List.isPrefixOf, Ne.symm hc]
    rw [List.nil_append, position, if_neg (by simp [hno])]
    rfl
  | cons c l ih =>
    have hc : c ≠ newline := by
      rintro rfl
      exact absurd (h.noLineEnd newline List.mem_cons_self) (by decide)
    have hno : lf.isPrefixOf (c :: (l ++ newline :: rest)) = false := by
      simp [lf, List.isPrefixOf, Ne.symm hc]
    rw [List.cons_append, position, if_neg (by simp [hno]),
      ih ⟨fun d hd => h.noLineEnd d (List.mem_cons_of_mem _ hd)⟩, Option.map_map]
    rfl

private theorem position_end {l rest : Bytes} (h : Free l) :
    position lf (l ++ newline :: newline :: rest) = some l.length := by
  induction l with
  | nil => rfl
  | cons c l ih =>
    have hc : c ≠ newline := by
      rintro rfl
      exact absurd (h.noLineEnd newline List.mem_cons_self) (by decide)
    have hno : lf.isPrefixOf (c :: (l ++ newline :: newline :: rest)) = false := by
      simp [lf, List.isPrefixOf, Ne.symm hc]
    rw [List.cons_append, position, if_neg (by simp [hno]),
      ih ⟨fun d hd => h.noLineEnd d (List.mem_cons_of_mem _ hd)⟩]
    rfl

/-- The first separator stands right after the lines. -/
private theorem position_joinLines {ls : List Bytes} (h : Lines ls) :
    position lf (joinLines ls ++ lf) = some (joinLines ls).length := by
  induction ls with
  | nil => exact absurd rfl h.some
  | cons l ls ih =>
    obtain ⟨hfree, -⟩ := h.free l List.mem_cons_self
    cases ls with
    | nil =>
      rw [joinLines_singleton]
      exact position_end hfree
    | cons l' ls =>
      obtain ⟨hfree', hne⟩ := h.free l' (List.mem_cons_of_mem _ List.mem_cons_self)
      have hhead : (joinLines (l' :: ls) ++ lf).head? ≠ some newline := by
        obtain ⟨c, cs, rfl⟩ := List.exists_cons_of_ne_nil hne
        have hstart : (joinLines ((c :: cs) :: ls) ++ lf).head? = some c := by
          cases ls with
          | nil => rfl
          | cons l ls =>
            rw [joinLines_cons _ (List.cons_ne_nil _ _)]
            rfl
        rw [hstart]
        rintro ⟨⟩
        exact absurd (hfree'.noLineEnd newline List.mem_cons_self) (by decide)
      rw [joinLines_cons l (List.cons_ne_nil _ _), List.append_assoc, List.cons_append,
        position_line hfree hhead, ih h.tail, List.length_append, List.length_cons]
      simp only [Option.map_some, Option.some.injEq]
      omega

private theorem position_crlf {text : Bytes} (h : carriageReturn ∉ text) : position crlf text = none := by
  induction text with
  | nil => rfl
  | cons c text ih =>
    have hc : c ≠ carriageReturn := fun he => h (he ▸ List.mem_cons_self)
    have hno : crlf.isPrefixOf (c :: text) = false := by simp [crlf, List.isPrefixOf, Ne.symm hc]
    rw [position, if_neg (by simp [hno]), ih fun hm => h (List.mem_cons_of_mem _ hm)]
    rfl

private theorem Lines.no_return {ls : List Bytes} (h : Lines ls) : carriageReturn ∉ joinLines ls := by
  induction ls with
  | nil => exact absurd rfl h.some
  | cons l ls ih =>
    have hl : carriageReturn ∉ l := fun hc =>
      absurd ((h.free l List.mem_cons_self).1.noLineEnd _ hc) (by decide)
    cases ls with
    | nil => rwa [joinLines_singleton]
    | cons l' ls =>
      rw [joinLines_cons l (List.cons_ne_nil _ _), List.mem_append, List.mem_cons, not_or, not_or]
      exact ⟨hl, by decide, ih h.tail⟩

/-- The first block of a body is its first lines. -/
theorem find_lines {ls : List Bytes} (h : Lines ls) (more : Bytes) :
    sse.find (joinLines ls ++ lf ++ more) = some ((joinLines ls).length, 2) := by
  refine sse.stable more ?_
  have hcr : carriageReturn ∉ joinLines ls ++ lf := by
    rw [List.mem_append, not_or]
    exact ⟨h.no_return, by decide⟩
  have hlf := position_joinLines h
  show findSeparator _ = _
  rw [findSeparator, hlf, position_crlf hcr]

/-! What a block of lines is read as. -/

private theorem splitOnP_joinLines {ls : List Bytes} (h : Lines ls) :
    (joinLines ls).splitOnP isLineEnd = ls := by
  induction ls with
  | nil => exact absurd rfl h.some
  | cons l ls ih =>
    obtain ⟨hfree, -⟩ := h.free l List.mem_cons_self
    cases ls with
    | nil => rw [joinLines_singleton, List.splitOnP_eq_singleton hfree.noLineEnd]
    | cons l' ls =>
      rw [joinLines_cons l (List.cons_ne_nil _ _), List.splitOnP_append_cons _ _ (by decide),
        List.splitOnP_eq_singleton hfree.noLineEnd, ih h.tail, List.singleton_append]

theorem drain_lines {ls : List Bytes} (h : Lines ls) (more : Bytes) :
    sse.drain (joinLines ls ++ lf ++ more) = (joinLines ls :: (sse.drain more).1, (sse.drain more).2) := by
  have hlen : (joinLines ls).length + 2 = (joinLines ls ++ lf).length := by simp [lf]
  rw [Framing.drain_some (find_lines h more), hlen, List.drop_left, List.append_assoc, List.take_left]

private theorem field_named {name : Bytes} (h : ∀ c ∈ name, c ≠ colonByte) (value : Bytes) :
    field (name ++ colonByte :: 32 :: value) = (name, value) := by
  have hall : ∀ c ∈ name, decide (c ≠ colonByte) = true := fun c hc => decide_eq_true (h c hc)
  rw [field, List.dropWhile_append_of_pos hall, List.takeWhile_append_of_pos hall]
  simp [List.dropPrefix?]

/-- A named line, its name one the reader knows or not. -/
private theorem read_named (name : Bytes) {key : Bytes} (hkey : key = name ++ [colonByte, 32]) (hne : name ≠ [])
    (h : ∀ c ∈ name, c ≠ colonByte) (b : Block) (value : Bytes) : b.read (key ++ value) =
      if name = ascii "id" then ⟨{ b.event with id := some value }, b.dataLines, true⟩
      else if name = ascii "event" then ⟨{ b.event with event := some value }, b.dataLines, true⟩
      else if name = ascii "data" then ⟨b.event, b.dataLines ++ [value], true⟩
      else ⟨b.event, b.dataLines, true⟩ := by
  have hline : key ++ value = name ++ colonByte :: 32 :: value := by
    rw [hkey, List.append_assoc]
    rfl
  obtain ⟨c, cs, rfl⟩ := List.exists_cons_of_ne_nil hne
  have hsome : ¬ (c :: cs ++ colonByte :: 32 :: value = [] ∨
      (c :: cs ++ colonByte :: 32 :: value).head? = some colonByte) := by
    simp [h c List.mem_cons_self]
  rw [hline, Block.read, if_neg hsome, field_named h]

/-! The reader's literals. -/

private theorem event_name : ascii "event" = [101, 118, 101, 110, 116] := by rw [ascii, String.toList_ofList]; rfl

private theorem id_name : ascii "id" = [105, 100] := by rw [ascii, String.toList_ofList]; rfl

private theorem data_name : ascii "data" = [100, 97, 116, 97] := by rw [ascii, String.toList_ofList]; rfl

private theorem event_start : ascii "event: " = [101, 118, 101, 110, 116, 58, 32] := by
  rw [ascii, String.toList_ofList]
  rfl

private theorem data_start : ascii "data: " = [100, 97, 116, 97, 58, 32] := by
  rw [ascii, String.toList_ofList]
  rfl

private theorem comment : ascii ":" = [58] := by rw [ascii, String.toList_ofList]; rfl

private theorem read_event (b : Block) (value : Bytes) :
    b.read (ascii "event: " ++ value) = ⟨{ b.event with event := some value }, b.dataLines, true⟩ := by
  have hname : ascii "event" ≠ ascii "id" := by
    rw [event_name, id_name]
    decide
  rw [read_named (ascii "event") (by rw [event_start, event_name]; rfl) (by rw [event_name]; decide)
    (by rw [event_name]; simp [colonByte]), if_neg hname, if_pos rfl]

private theorem read_data (b : Block) (value : Bytes) :
    b.read (ascii "data: " ++ value) = ⟨b.event, b.dataLines ++ [value], true⟩ := by
  have hname : ascii "data" ≠ ascii "id" ∧ ascii "data" ≠ ascii "event" := by
    rw [data_name, id_name, event_name]
    decide
  rw [read_named (ascii "data") (by rw [data_start, data_name]; rfl) (by rw [data_name]; decide)
    (by rw [data_name]; simp [colonByte]), if_neg hname.1, if_neg hname.2, if_pos rfl]

/-! What is sent, and what of it is read. -/

inductive Sent (E : Type) where
  | event (e : E)
  | keepAlive

/-- How events become names and data, and are read from them. -/
structure Reading (E : Type) where
  parts : E → Bytes × Bytes
  read : Bytes → Bytes → Option E

variable {E : Type}

def Reading.readEvent (r : Reading E) (ev : SseEvent) : Option E :=
  ev.event.bind fun name => r.read name ev.data

/-- Names and data are lines of text, an event is read as what it shows, and nothing is read of data that
was cut short. -/
structure Reading.Lawful (r : Reading E) (ok : E → Prop) (shown : E → Option E) : Prop where
  name : ∀ e, ok e → Free (r.parts e).1 ∧ utf8Valid (r.parts e).1 = true
  data : ∀ e, ok e → Free (r.parts e).2 ∧ utf8Valid (r.parts e).2 = true
  full : ∀ e, ok e → r.read (r.parts e).1 (r.parts e).2 = shown e
  empty : ∀ name, r.read name [] = none
  cut : ∀ e, ok e → ∀ a b, (r.parts e).2 = a ++ b → b ≠ [] → r.read (r.parts e).1 (fromUtf8Lossy a) = none

def Sent.lines (r : Reading E) : Sent E → List Bytes
  | .event e => eventLines (r.parts e).1 (r.parts e).2
  | .keepAlive => [ascii ":"]

def SseFraming.frame (f : SseFraming) (r : Reading E) : Sent E → Bytes
  | .event e => f.event (r.parts e).1 (r.parts e).2
  | .keepAlive => f.keepAlive

def Sent.Ok (ok : E → Prop) : Sent E → Prop
  | .event e => ok e
  | .keepAlive => True

def Sent.shown (shown : E → Option E) : Sent E → Option E
  | .event e => shown e
  | .keepAlive => none

def SseFraming.body (f : SseFraming) (r : Reading E) (items : List (Sent E)) : Bytes :=
  items.flatMap (f.frame r)

/-- What a reader of the stream is given. -/
def Reading.stream {ε : Type} (r : Reading E) (chunks : List (Except ε Bytes)) : List E :=
  (sseStream [] chunks).filterMap fun item => item.toOption.bind r.readEvent

section
variable {f : SseFraming} {r : Reading E} {ok : E → Prop} {shown : E → Option E}

private theorem Free.append {a b : Bytes} (ha : Free a) (hb : Free b) : Free (a ++ b) :=
  ⟨fun c hc => (List.mem_append.mp hc).elim (ha.noLineEnd c) (hb.noLineEnd c)⟩

private theorem Free.cut {a b : Bytes} (hb : Free b) (h : a <+: b) : Free a :=
  ⟨fun c hc => hb.noLineEnd c (h.subset hc)⟩

private theorem free_event : Free (ascii "event: ") :=
  ⟨by rw [event_start]; simp [isLineEnd, newline, carriageReturn]⟩

private theorem free_data : Free (ascii "data: ") :=
  ⟨by rw [data_start]; simp [isLineEnd, newline, carriageReturn]⟩

private theorem free_comment : Free (ascii ":") := ⟨by rw [comment]; simp [isLineEnd, newline, carriageReturn]⟩

private theorem free_replacement : Free Text.replacement :=
  ⟨by simp [Text.replacement, isLineEnd, newline, carriageReturn]⟩

private theorem event_utf8 : utf8Valid (ascii "event: ") = true := by rw [event_start]; rfl

private theorem data_utf8 : utf8Valid (ascii "data: ") = true := by rw [data_start]; rfl

private theorem Sent.lines_lines (hr : r.Lawful ok shown) {item : Sent E} (h : item.Ok ok) :
    Lines (item.lines r) := by
  cases item with
  | keepAlive => exact ⟨List.cons_ne_nil _ _, List.forall_mem_singleton.mpr ⟨free_comment, by decide⟩⟩
  | event e =>
    refine ⟨List.cons_ne_nil _ _, List.forall_mem_cons.mpr ⟨⟨free_event.append (hr.name e h).1, ?_⟩,
      List.forall_mem_singleton.mpr ⟨free_data.append (hr.data e h).1, ?_⟩⟩⟩
    · exact List.append_ne_nil_of_left_ne_nil (by decide) _
    · exact List.append_ne_nil_of_left_ne_nil (by decide) _

private theorem frame_eq (hf : f.Lawful) (hr : r.Lawful ok shown) {item : Sent E} (h : item.Ok ok) :
    f.frame r item = joinLines (item.lines r) ++ lf := by
  cases item with
  | keepAlive => exact hf.keepAlive
  | event e => exact hf.event _ _ (hr.name e h).1 (hr.data e h).1

/-- A block of the event's line and one more line. -/
private theorem readBlock_event {name line : Bytes} (hname : utf8Valid name = true) (hfree : Free name)
    (hline : Free line) : readBlock (joinLines [ascii "event: " ++ name, line]) =
      let b := Block.read ⟨⟨none, some name, []⟩, [], true⟩ (fromUtf8Lossy line)
      some { b.event with data := joinLines b.dataLines } := by
  have hfirst : utf8Valid (ascii "event: " ++ name ++ [newline]) = true :=
    Text.utf8Valid_append (Text.utf8Valid_append event_utf8 hname) (by decide)
  have htext : fromUtf8Lossy (joinLines [ascii "event: " ++ name, line]) =
      ascii "event: " ++ name ++ newline :: fromUtf8Lossy line := by
    rw [joinLines_cons _ (List.cons_ne_nil _ _), joinLines_singleton, ← List.singleton_append,
      ← List.append_assoc, Text.fromUtf8Lossy_append hfirst, List.append_assoc, List.singleton_append]
  have hlossy : Free (fromUtf8Lossy line) := by
    refine ⟨fun c hc => ?_⟩
    rcases Text.mem_fromUtf8Lossy hc with hc | hc
    · exact hline.noLineEnd c hc
    · exact free_replacement.noLineEnd c hc
  have hlines : readLines (fromUtf8Lossy (joinLines [ascii "event: " ++ name, line])) =
      Block.read ⟨⟨none, some name, []⟩, [], true⟩ (fromUtf8Lossy line) := by
    rw [htext, readLines, List.splitOnP_append_cons _ _ (by decide),
      List.splitOnP_eq_singleton (free_event.append hfree).noLineEnd,
      List.splitOnP_eq_singleton hlossy.noLineEnd, List.singleton_append, List.foldl_cons,
      read_event, List.foldl_cons, List.foldl_nil]
  have hany : (Block.read ⟨⟨none, some name, []⟩, [], true⟩ (fromUtf8Lossy line)).any = true := by
    unfold Block.read
    dsimp only
    split_ifs <;> rfl
  rw [readBlock, hlines]
  simp only [hany, if_true]

private theorem read_frame (hr : r.Lawful ok shown) (item : Sent E) (h : item.Ok ok) :
    (readBlock (joinLines (item.lines r))).bind r.readEvent = item.shown shown := by
  cases item with
  | keepAlive =>
    have hnone : readBlock (joinLines [ascii ":"]) = none := by
      rw [comment]
      rfl
    rw [Sent.lines, hnone]
    rfl
  | event e =>
    obtain ⟨hfree, hname⟩ := hr.name e h
    obtain ⟨hdata, hutf8⟩ := hr.data e h
    have hline : utf8Valid (ascii "data: " ++ (r.parts e).2) = true :=
      Text.utf8Valid_append data_utf8 hutf8
    rw [Sent.lines, eventLines, readBlock_event hname hfree (free_data.append hdata),
      Text.fromUtf8Lossy_valid hline]
    simp only [read_data, List.nil_append, joinLines_singleton]
    exact hr.full e h

/-- A block of one line that begins as an event line has no data. -/
private theorem readBlock_single {line : Bytes} (h : Free line) (hhead : line.head? = some 101) {ev : SseEvent}
    (he : readBlock line = some ev) : ev.data = [] := by
  obtain ⟨rest, rfl⟩ : ∃ rest, line = 101 :: rest := by
    cases line with
    | nil => exact nomatch hhead
    | cons c rest => exact ⟨rest, congrArg (· :: rest) (Option.some.inj hhead)⟩
  have hlossy : fromUtf8Lossy (101 :: rest) = 101 :: fromUtf8Lossy rest := by
    rw [Text.fromUtf8Lossy.eq_def]
    rfl
  have hfree : Free (101 :: fromUtf8Lossy rest) := by
    rw [← hlossy]
    refine ⟨fun c hc => ?_⟩
    rcases Text.mem_fromUtf8Lossy hc with hc | hc
    · exact h.noLineEnd c hc
    · exact free_replacement.noLineEnd c hc
  have hfield : (field (101 :: fromUtf8Lossy rest)).1 ≠ ascii "data" := by
    have hkey : (ascii "data").head? = some 100 := by rw [data_name]; rfl
    have hfirst : (field (101 :: fromUtf8Lossy rest)).1.head? = some 101 := by
      unfold field
      split <;> rfl
    intro heq
    rw [heq, hkey] at hfirst
    exact absurd hfirst (by decide)
  have hdata : (Block.read ⟨⟨none, none, []⟩, [], false⟩ (101 :: fromUtf8Lossy rest)).dataLines = [] := by
    unfold Block.read
    dsimp only
    split_ifs <;> rfl
  rw [readBlock, hlossy, readLines, List.splitOnP_eq_singleton hfree.noLineEnd, List.foldl_cons,
    List.foldl_nil] at he
  dsimp only at he
  split at he
  · obtain rfl := Option.some.inj he
    rw [hdata]
    rfl
  · exact nomatch he

private theorem prefix_append_cases {l a b : Bytes} (h : l <+: a ++ b) :
    l <+: a ∨ ∃ p, l = a ++ p ∧ p <+: b := by
  rcases List.prefix_or_prefix_of_prefix h (List.prefix_append a b) with h' | ⟨p, rfl⟩
  · exact .inl h'
  · exact .inr ⟨p, rfl, (List.prefix_append_right_inj a).mp h⟩

private theorem readEvent_empty (hr : r.Lawful ok shown) {ev : SseEvent} (h : ev.data = []) :
    r.readEvent ev = none := by
  unfold Reading.readEvent
  cases ev.event with
  | none => rfl
  | some name => rw [Option.bind_some, h, hr.empty]

/-- A line with no value adds no data. -/
private theorem read_valueless {b : Block} {line : Bytes} (hb : b.dataLines = []) (h : (field line).2 = []) :
    joinLines (b.read line).dataLines = [] := by
  obtain ⟨event, dataLines, any⟩ := b
  obtain rfl : dataLines = [] := hb
  unfold Block.read
  dsimp only
  rw [h]
  split_ifs <;> rfl

private theorem data_key : ∀ line ∈ (ascii "data: ").inits, (field (fromUtf8Lossy line)).2 = [] := by
  rw [data_start]
  decide

/-- What is read of a line of data that was cut short. -/
private theorem read_cut (hr : r.Lawful ok shown) {e : E} (h : ok e) {line : Bytes}
    (hline : line <+: ascii "data: " ++ (r.parts e).2) :
    (readBlock (joinLines [ascii "event: " ++ (r.parts e).1, line])).bind r.readEvent = none ∨
      line = ascii "data: " ++ (r.parts e).2 := by
  obtain ⟨hfree, hname⟩ := hr.name e h
  obtain ⟨hdata, hutf8⟩ := hr.data e h
  rw [readBlock_event hname hfree ((free_data.append hdata).cut hline)]
  rcases prefix_append_cases hline with hkey | ⟨part, rfl, hpart⟩
  · left
    exact readEvent_empty hr (read_valueless rfl (data_key line ((List.mem_inits _ _).mpr hkey)))
  · rw [Text.fromUtf8Lossy_append data_utf8, read_data]
    obtain ⟨rest, hrest⟩ := hpart
    cases rest with
    | nil =>
      right
      rw [← hrest, List.append_nil]
    | cons c rest =>
      left
      simp only [List.nil_append, joinLines_singleton, Option.bind_some]
      exact hr.cut e h part (c :: rest) hrest.symm (List.cons_ne_nil _ _)

/-- The events of lines that came in with a separator. -/
private theorem events_lines (r : Reading E) {ls : List Bytes} (h : Lines ls) (more : Bytes) (hmore : (sse.drain more).1 = []) :
    (parseSse (joinLines ls ++ lf ++ more)).1.filterMap r.readEvent =
      ((readBlock (joinLines ls)).bind r.readEvent).toList := by
  rw [parseSse, drain_lines h, hmore]
  cases hb : readBlock (joinLines ls) with
  | none => simp [hb]
  | some ev => cases he : r.readEvent ev <;> simp [hb, he]

private theorem events_nil : (parseSse lf).1 = [] := by decide

/-- A prefix of an event line is a block without data. -/
private theorem events_single (hr : r.Lawful ok shown) {line : Bytes} (h : Free line)
    (hhead : line.head? = some 101) (more : Bytes) (hmore : (sse.drain more).1 = []) :
    (parseSse (line ++ lf ++ more)).1.filterMap r.readEvent = [] := by
  have hlines : Lines [line] := by
    refine ⟨List.cons_ne_nil _ _, List.forall_mem_singleton.mpr ⟨h, ?_⟩⟩
    rintro rfl
    exact nomatch hhead
  have := events_lines r hlines more hmore
  rw [joinLines_singleton] at this
  rw [this]
  cases hb : readBlock line with
  | none => rfl
  | some ev =>
    rw [Option.bind_some, readEvent_empty hr (readBlock_single h hhead hb)]
    rfl

private theorem eventLine_head {name t : Bytes} (h : t <+: ascii "event: " ++ name) (hne : t ≠ []) :
    t.head? = some 101 := by
  obtain ⟨c, cs, rfl⟩ := List.exists_cons_of_ne_nil hne
  obtain ⟨rest, hrest⟩ := h
  have hkey : (ascii "event: ").head? = some 101 := by rw [event_start]; rfl
  have := congrArg List.head? hrest
  rw [List.head?_append, List.head?_append, hkey] at this
  exact this

/-- The events read of what came in of an event's lines. -/
private theorem read_partial (hr : r.Lawful ok shown) {e : E} (h : ok e) {t : Bytes}
    (ht : t <+: joinLines (eventLines (r.parts e).1 (r.parts e).2)) :
    (parseSse (t ++ lf)).1.filterMap r.readEvent = [] ∨
      (parseSse (t ++ lf)).1.filterMap r.readEvent = (shown e).toList := by
  have hfirst := free_event.append (hr.name e h).1
  rw [eventLines, joinLines_cons _ (List.cons_ne_nil _ _), joinLines_singleton] at ht
  rcases prefix_append_cases ht with ht | ⟨p, rfl, hp⟩
  · left
    by_cases hne : t = []
    · rw [hne, List.nil_append, events_nil, List.filterMap_nil]
    · have := events_single hr (hfirst.cut ht) (eventLine_head ht hne) [] rfl
      rwa [List.append_nil] at this
  · cases p with
    | nil =>
      left
      have := events_single hr hfirst (eventLine_head List.prefix_rfl (by simp [ascii])) [] rfl
      rwa [List.append_nil] at this ⊢
    | cons c line =>
      obtain ⟨rfl, hline⟩ := List.cons_prefix_cons.mp hp
      by_cases hne : line = []
      · left
        have := events_single hr hfirst (eventLine_head List.prefix_rfl (by simp [ascii])) [newline] rfl
        rw [hne]
        rw [List.append_assoc] at this ⊢
        exact this
      · have hlines : Lines [ascii "event: " ++ (r.parts e).1, line] := by
          refine ⟨List.cons_ne_nil _ _, List.forall_mem_cons.mpr ⟨⟨hfirst, ?_⟩, List.forall_mem_singleton.mpr
            ⟨(free_data.append (hr.data e h).1).cut hline, hne⟩⟩⟩
          exact List.append_ne_nil_of_left_ne_nil (by decide) _
        have hevents := events_lines r hlines [] rfl
        rw [List.append_nil] at hevents
        rw [← joinLines_singleton line, ← joinLines_cons _ (List.cons_ne_nil _ _), hevents]
        rcases read_cut hr h hline with hnone | rfl
        · left
          rw [hnone]
          rfl
        · right
          exact congrArg Option.toList (read_frame hr (.event e) h)

/-- The events read of what came in of a frame that did not come in whole, when the stream goes on being
open, and when it ends. -/
private theorem read_tail (hf : f.Lawful) (hr : r.Lawful ok shown) {item : Sent E} (h : item.Ok ok) {t : Bytes}
    (ht : t <+: f.frame r item) (hne : t ≠ f.frame r item) :
    (parseSse t).1 = [] ∧ ((parseSse (t ++ lf)).1.filterMap r.readEvent = [] ∨
      (parseSse (t ++ lf)).1.filterMap r.readEvent = (item.shown shown).toList) := by
  have hlines := Sent.lines_lines hr h
  rw [frame_eq hf hr h] at ht hne
  constructor
  · cases hfind : sse.find t with
    | none => rw [parseSse, Framing.drain_none hfind]; rfl
    | some p =>
      obtain ⟨rest, hrest⟩ := ht
      have hwhole := sse.stable rest hfind
      have hfirst := find_lines hlines []
      rw [List.append_nil] at hfirst
      rw [hrest, hfirst] at hwhole
      obtain rfl := Option.some.inj hwhole
      have hlen := (sse.within hfind).2
      have htotal := congrArg List.length hrest
      simp only [List.length_append, lf, List.length_cons, List.length_nil] at htotal
      have hnil : rest = [] := List.length_eq_zero_iff.mp (by omega)
      rw [hnil, List.append_nil] at hrest
      exact absurd hrest hne
  · rcases prefix_append_cases ht with ht | ⟨p, rfl, hp⟩
    · cases item with
      | event e => exact read_partial hr h ht
      | keepAlive =>
        have hnone : ∀ t ∈ (joinLines [ascii ":"]).inits, (parseSse (t ++ lf)).1 = [] := by
          rw [comment]
          decide
        left
        rw [hnone t ((List.mem_inits _ _).mpr ht), List.filterMap_nil]
    · have hp' : p = [] ∨ p = [newline] ∨ p = lf := by
        have := (List.mem_inits _ _).mpr hp
        simpa [lf] using this
      rcases hp' with rfl | rfl | rfl
      · right
        have := events_lines r hlines [] rfl
        rw [List.append_nil] at this ⊢
        rw [this, read_frame hr item h]
      · right
        have := events_lines r hlines [newline] rfl
        rw [read_frame hr item h, List.append_assoc] at this
        rw [List.append_assoc]
        exact this
      · exact absurd rfl hne

/-! Whole streams. -/

/-- The frames that came in whole, and what came in of the next one. -/
private theorem body_cut {items : List (Sent E)} {p : Bytes} (h : p <+: f.body r items) :
    ∃ k t, p = f.body r (items.take k) ++ t ∧ ((t = [] ∧ items.length ≤ k) ∨
      ∃ item, items[k]? = some item ∧ t <+: f.frame r item ∧ t ≠ f.frame r item) := by
  induction items generalizing p with
  | nil =>
    refine ⟨0, [], ?_, .inl ⟨rfl, le_refl _⟩⟩
    simpa [SseFraming.body] using h
  | cons item items ih =>
    rw [SseFraming.body, List.flatMap_cons] at h
    by_cases hwhole : f.frame r item <+: p
    · obtain ⟨q, rfl⟩ := hwhole
      obtain ⟨k, t, hq, ht⟩ := ih ((List.prefix_append_right_inj _).mp h)
      refine ⟨k + 1, t, ?_, ?_⟩
      · rw [List.take_succ_cons, SseFraming.body, List.flatMap_cons, List.append_assoc, hq]
        rfl
      · rcases ht with ⟨rfl, hk⟩ | ⟨i, hi, ht⟩
        · exact .inl ⟨rfl, Nat.succ_le_succ hk⟩
        · exact .inr ⟨i, by rwa [List.getElem?_cons_succ], ht⟩
    · refine ⟨0, p, rfl, .inr ⟨item, rfl, ?_, ?_⟩⟩
      · rcases prefix_append_cases h with h | ⟨q, rfl, -⟩
        · exact h
        · exact absurd (List.prefix_append _ _) hwhole
      · rintro rfl
        exact hwhole List.prefix_rfl

private theorem events_body (hf : f.Lawful) (hr : r.Lawful ok shown) {items : List (Sent E)}
    (h : ∀ item ∈ items, item.Ok ok) (more : Bytes) :
    (parseSse (f.body r items ++ more)).1.filterMap r.readEvent =
      items.filterMap (Sent.shown shown) ++ (parseSse more).1.filterMap r.readEvent := by
  induction items with
  | nil => rfl
  | cons item items ih =>
    obtain ⟨hitem, hitems⟩ := List.forall_mem_cons.mp h
    have hlines := Sent.lines_lines hr hitem
    have hfirst := drain_lines hlines (f.body r items ++ more)
    have hbody : f.body r (item :: items) ++ more = joinLines (item.lines r) ++ lf ++ (f.body r items ++ more) := by
      rw [SseFraming.body, List.flatMap_cons, frame_eq hf hr hitem, List.append_assoc]
      rfl
    have hread := read_frame hr item hitem
    have hrest := ih hitems
    rw [parseSse] at hrest
    rw [hbody, parseSse, hfirst, List.filterMap_cons]
    cases hb : readBlock (joinLines (item.lines r)) with
    | none =>
      rw [hb, Option.bind_none] at hread
      rw [List.filterMap_cons_none hread.symm]
      exact hrest
    | some ev =>
      rw [hb, Option.bind_some] at hread
      dsimp only
      rw [List.filterMap_cons, List.filterMap_cons, hread]
      cases hs : item.shown shown with
      | none => exact hrest
      | some e =>
        dsimp only
        rw [hrest]
        rfl

private theorem stream_eq {ε : Type} (chunks : List (Except ε Bytes)) :
    r.stream chunks = (parseSse ((received chunks).1 ++
      if (received chunks).2.isNone then lf else [])).1.filterMap r.readEvent := by
  rw [Reading.stream, sseStream_received]
  cases (received chunks).2 with
  | none => simp [List.filterMap_map, Except.toOption]
  | some e => simp [List.filterMap_map, Except.toOption]

private theorem screen_take {items : List (Sent E)} {j k : ℕ} (h : j ≤ k) :
    (items.take j).filterMap (Sent.shown shown) <+: (items.take k).filterMap (Sent.shown shown) :=
  (List.take_prefix_take_left h).filterMap _

/-- Frames beyond what came in did not come in whole. -/
private theorem body_beyond {items : List (Sent E)} {k j : ℕ} {item : Sent E} {t : Bytes}
    (hitem : items[k]? = some item) (ht : t <+: f.frame r item) (hne : t ≠ f.frame r item)
    (hj : f.body r (items.take j) <+: f.body r (items.take k) ++ t) : j ≤ k := by
  by_contra hlt
  have hsucc : items.take (k + 1) = items.take k ++ [item] := by
    rw [List.take_add_one, hitem]
    rfl
  have hbody : f.body r (items.take (k + 1)) <+: f.body r (items.take j) := by
    obtain ⟨rest, hrest⟩ := List.take_prefix_take_left (l := items) (show k + 1 ≤ j by omega)
    rw [← hrest, SseFraming.body, SseFraming.body, List.flatMap_append]
    exact List.prefix_append _ _
  have hle := (hbody.trans hj).length_le
  rw [hsucc, SseFraming.body, SseFraming.body, List.flatMap_append, List.flatMap_singleton,
    List.length_append, List.length_append] at hle
  have hshort := ht.length_le
  exact hne (ht.eq_of_length (by omega))

/-- However the body is cut into chunks and wherever the connection ends, the reader is given the first of
the events sent, in order: all whose frames came in whole, and none but those sent. -/
theorem stream_arrives {ε : Type} (hf : f.Lawful) (hr : r.Lawful ok shown) {items : List (Sent E)}
    (h : ∀ item ∈ items, item.Ok ok) (chunks : List (Except ε Bytes))
    (hin : (received chunks).1 <+: f.body r items) :
    r.stream chunks <+: items.filterMap (Sent.shown shown) ∧
      ∀ j, f.body r (items.take j) <+: (received chunks).1 →
        (items.take j).filterMap (Sent.shown shown) <+: r.stream chunks := by
  obtain ⟨k, t, hp, ht⟩ := body_cut hin
  have htake : ∀ item ∈ items.take k, item.Ok ok := fun item hitem => h item (List.mem_of_mem_take hitem)
  rw [stream_eq, hp, List.append_assoc, events_body hf hr htake]
  set last := (parseSse (t ++ if (received chunks).2.isNone then lf else [])).1.filterMap r.readEvent
  rcases ht with ⟨rfl, hk⟩ | ⟨item, hitem, ht, hne⟩
  · have hlast : last = [] := by
      simp only [last, List.nil_append]
      split
      · rw [events_nil, List.filterMap_nil]
      · rfl
    rw [hlast, List.append_nil, List.take_of_length_le hk]
    exact ⟨List.prefix_rfl, fun j _ => (List.take_prefix j items).filterMap _⟩
  · obtain ⟨hopen, hend⟩ := read_tail hf hr (h item (List.mem_of_getElem? hitem)) ht hne
    have hlast : last = [] ∨ last = (item.shown shown).toList := by
      simp only [last]
      split
      · exact hend
      · rw [List.append_nil, hopen]
        exact .inl rfl
    constructor
    · have hsucc : (items.take (k + 1)).filterMap (Sent.shown shown) =
          (items.take k).filterMap (Sent.shown shown) ++ (item.shown shown).toList := by
        rw [List.take_add_one, hitem, List.filterMap_append]
        cases hs : item.shown shown <;> simp [hs]
      refine List.IsPrefix.trans ?_ ((List.take_prefix (k + 1) items).filterMap _)
      rw [hsucc, List.prefix_append_right_inj]
      rcases hlast with hl | hl <;> rw [hl]
      exact List.nil_prefix
    · intro j hj
      exact (screen_take (body_beyond hitem ht hne hj)).trans (List.prefix_append _ _)

end

end PulseNull.Tui
