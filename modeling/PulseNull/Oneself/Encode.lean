import PulseNull.Oneself.Store
import PulseNull.Json.Size

/-! What `encode_line` writes: one canonical row line that reads back as the row, none of
whose proper prefixes is JSON. A gap row can always be encoded. -/
namespace PulseNull.Oneself
open Text (ascii newline Complete)
variable {env : Env}

/-! Events as map values. -/

private theorem foldl_insert_eq {fs acc : List (Bytes × Json)} (h : ∀ f ∈ fs, f.2.Normal) :
    fs.foldl (fun ms f => Json.insert f.1 f.2 ms) acc = Json.normalizeMembers acc fs := by
  induction fs generalizing acc with
  | nil => rfl
  | cons f fs ih =>
    obtain ⟨k, v⟩ := f
    have hv : v.normalize = v := Json.normalize_of_normal (h (k, v) (by simp))
    rw [List.foldl_cons, Json.normalizeMembers, hv, ih (fun f hf => h f (by simp [hf]))]

private theorem depthMembers_le {fs : List (Bytes × Json)} {d : Nat} (h : ∀ f ∈ fs, f.2.depth ≤ d) :
    Json.depthMembers fs ≤ d := by
  induction fs with
  | nil => simp [Json.depthMembers]
  | cons f fs ih =>
    exact max_le (h f (by simp)) (ih fun g hg => h g (by simp [hg]))

/-- A map value of normal members is normal and one level deeper than they are. -/
theorem ofFields_normal {fs : List (Bytes × Json)} {d : Nat}
    (h : ∀ f ∈ fs, f.2.Normal ∧ f.2.depth ≤ d) :
    (Json.ofFields fs).Normal ∧ (Json.ofFields fs).depth ≤ d + 1 := by
  have he : Json.ofFields fs = (Json.obj fs).normalize := by
    rw [Json.ofFields, Json.normalize, foldl_insert_eq fun f hf => (h f hf).1]
  have hd := Json.depth_normalize_le (.obj fs)
  rw [← he, Json.depth] at hd
  exact ⟨he ▸ Json.normalize_normal _, hd.trans
    (Nat.succ_le_succ (depthMembers_le fun f hf => (h f hf).2))⟩

private theorem forall_field {P : Json → Prop} {k : String} {v : Json} (h : P v) :
    ∀ f ∈ field k v, P f.2 := by
  simpa [field] using h

private theorem forall_optField {α : Type} {P : Json → Prop} {k : String} {g : α → Json}
    {o : Option α} (h : ∀ a, P (g a)) : ∀ f ∈ optField k g o, P f.2 := by
  cases o <;> simp [optField, h]

private def Flat (d : Nat) (v : Json) : Prop := v.Normal ∧ v.depth ≤ d

private theorem flat_str (d : Nat) (s : Bytes) : Flat d (.str s) := ⟨trivial, Nat.zero_le _⟩

private theorem flat_bool (d : Nat) (b : Bool) : Flat d (.bool b) := ⟨trivial, Nat.zero_le _⟩

private theorem flat_null (d : Nat) : Flat d .null := ⟨trivial, Nat.zero_le _⟩

private theorem flat_u64 (d : Nat) (n : U64) : Flat d (u64 n) := ⟨trivial, Nat.zero_le _⟩

private theorem flat_identity (i : Identity) : Flat 1 i.toValue := by
  refine ofFields_normal (d := 0) ?_
  simp only [List.forall_mem_append]
  exact ⟨⟨forall_optField (flat_str 0), forall_optField (flat_str 0)⟩,
    forall_optField (flat_str 0)⟩

theorem ReceiptEvent.toValue_normal (event : ReceiptEvent) :
    event.toValue.Normal ∧ event.toValue.depth ≤ 2 := by
  cases event <;> refine ofFields_normal (d := 1) ?_ <;> simp only [List.forall_mem_append]
  all_goals
    repeat' constructor
  all_goals
    first
    | exact forall_field (flat_str 1 _)
    | exact forall_field (flat_bool 1 _)
    | exact forall_field (flat_u64 1 _)
    | exact forall_field (flat_null 1)
    | exact forall_field (flat_identity _)
    | exact forall_optField (flat_str 1)
    | exact forall_optField (flat_u64 1)

/-! The kind of an event survives. -/

def ReceiptEvent.kind : ReceiptEvent → Bytes
  | .genesis _ => ascii "genesis"
  | .boot _ => ascii "boot"
  | .opened _ => ascii "open"
  | .close _ => ascii "close"
  | .shutdown _ => ascii "shutdown"
  | .recover .. => ascii "recover"
  | .gap .. => ascii "gap"

private theorem lookup_foldl {k : Bytes} {fs acc : List (Bytes × Json)} (h : ∀ f ∈ fs, f.1 ≠ k) :
    Json.lookup k (fs.foldl (fun ms f => Json.insert f.1 f.2 ms) acc) = Json.lookup k acc := by
  induction fs generalizing acc with
  | nil => rfl
  | cons f fs ih =>
    rw [List.foldl_cons, ih (fun g hg => h g (by simp [hg])),
      Json.lookup_insert_ne (h f (by simp))]

private theorem lookup_ofFields {k : String} {v : Json} {fs : List (Bytes × Json)}
    (h : ∀ f ∈ fs, f.1 ≠ ascii k) : ∃ ms, Json.ofFields (field k v ++ fs) = .obj ms ∧
      Json.lookup (ascii k) ms = some v := by
  refine ⟨_, rfl, ?_⟩
  rw [field, List.singleton_append, List.foldl_cons, lookup_foldl h, Json.lookup_insert_self]

private theorem field_ne {k k' : String} {v : Json} (h : ascii k ≠ ascii k') :
    ∀ f ∈ field k v, f.1 ≠ ascii k' := by
  simpa [field] using h

private theorem optField_ne {α : Type} {k k' : String} {g : α → Json} {o : Option α}
    (h : ascii k ≠ ascii k') : ∀ f ∈ optField k g o, f.1 ≠ ascii k' := by
  cases o <;> simp [optField, h]

theorem ReceiptEvent.toValue_kind (event : ReceiptEvent) : ∃ ms, event.toValue = .obj ms ∧
    Json.lookup (ascii "kind") ms = some (.str event.kind) := by
  cases event <;> simp only [ReceiptEvent.toValue, ReceiptEvent.kind, List.append_assoc] <;>
    refine lookup_ofFields ?_ <;> try simp only [List.forall_mem_append]
  all_goals
    repeat' apply And.intro
  all_goals
    first
    | exact field_ne (by decide)
    | exact optField_ne (by decide)

private theorem genesisOfValue_kind {v : Json} {event : ReceiptEvent}
    (h : genesisOfValue v = .ok event) : event.kind = ascii "genesis" := by
  simp only [genesisOfValue, bind_eq_ok, pure, Except.pure, Except.ok.injEq] at h
  obtain ⟨_, _, _, _, rfl⟩ := h
  rfl

private theorem shutdownOfValue_kind {v : Json} {event : ReceiptEvent}
    (h : shutdownOfValue v = .ok event) : event.kind = ascii "shutdown" := by
  simp only [shutdownOfValue, bind_eq_ok, pure, Except.pure, Except.ok.injEq] at h
  obtain ⟨_, _, _, _, rfl⟩ := h
  rfl

private theorem recoverOfValue_kind {v : Json} {event : ReceiptEvent}
    (h : recoverOfValue v = .ok event) : event.kind = ascii "recover" := by
  simp only [recoverOfValue, bind_eq_ok, pure, Except.pure, Except.ok.injEq] at h
  obtain ⟨_, _, _, _, _, _, _, _, rfl⟩ := h
  rfl

private theorem gapOfValue_kind {v : Json} {event : ReceiptEvent}
    (h : gapOfValue v = .ok event) : event.kind = ascii "gap" := by
  simp only [gapOfValue, bind_eq_ok, pure, Except.pure, Except.ok.injEq] at h
  obtain ⟨_, _, _, _, _, _, _, _, rfl⟩ := h
  rfl

private theorem ofValue_kind {ms : List (Bytes × Json)} {event : ReceiptEvent}
    (h : ReceiptEvent.ofValue (.obj ms) = .ok event) :
    Json.lookup (ascii "kind") ms = some (.str event.kind) := by
  simp only [ReceiptEvent.ofValue, Json.splitTag, bind_eq_ok, Json.required_eq_ok,
    Json.decodeStr_eq_ok, pure, Except.pure, Except.ok.injEq] at h
  obtain ⟨_, ⟨kind, ⟨_, hk, rfl⟩, rfl⟩, h⟩ := h
  rw [hk, Option.some.injEq, Json.str.injEq]
  simp only at h
  split at h
  · next he => rw [he, genesisOfValue_kind h]
  iterate 3
    split at h
    · next he =>
      obtain ⟨_, _, h⟩ := bind_eq_ok.mp h
      rw [he, ← Except.ok.inj h]
      rfl
  split at h
  · next he => rw [he, shutdownOfValue_kind h]
  split at h
  · next he => rw [he, recoverOfValue_kind h]
  split at h
  · next he => rw [he, gapOfValue_kind h]
  · simp at h

theorem ofValue_toValue_kind {event event' : ReceiptEvent}
    (h : ReceiptEvent.ofValue event.toValue = .ok event') : event'.kind = event.kind := by
  obtain ⟨ms, hv, hk⟩ := event.toValue_kind
  rw [hv] at h
  rw [ofValue_kind h, Option.some.injEq, Json.str.injEq] at hk
  exact hk

theorem isGenesis_iff (event : ReceiptEvent) :
    event.isGenesis = true ↔ event.kind = ascii "genesis" := by
  cases event <;> simp only [ReceiptEvent.isGenesis, ReceiptEvent.kind] <;> decide

theorem isRecover_iff (event : ReceiptEvent) :
    event.isRecover = true ↔ event.kind = ascii "recover" := by
  cases event <;> simp only [ReceiptEvent.isRecover, ReceiptEvent.kind] <;> decide

theorem isGap_iff (event : ReceiptEvent) : event.isGap = true ↔ event.kind = ascii "gap" := by
  cases event <;> simp only [ReceiptEvent.isGap, ReceiptEvent.kind] <;> decide

theorem appendable_iff (event : ReceiptEvent) : event.appendable = true ↔
    event.kind ≠ ascii "genesis" ∧ event.kind ≠ ascii "recover" ∧ event.kind ≠ ascii "gap" := by
  simp only [ReceiptEvent.appendable, Bool.and_eq_true, Bool.not_eq_true', Bool.eq_false_iff,
    ne_eq, isGenesis_iff, isRecover_iff, isGap_iff, and_assoc]

/-! The line. -/

def eventRow (seq : U64) (prev ts : Bytes) (event : ReceiptEvent) : Row :=
  ⟨1, seq, prev, ts, event.toValue⟩

theorem eventRow_normal (seq : U64) (prev ts : Bytes) (event : ReceiptEvent) :
    (eventRow seq prev ts event).toValue.Normal ∧
      (eventRow seq prev ts event).toValue.depth ≤ Json.maxDepth := by
  obtain ⟨hn, hd⟩ := event.toValue_normal
  refine ⟨Row.toValue_normal hn, ?_⟩
  rw [Row.toValue_eq]
  simp only [Row.members, eventRow, Json.depth, Json.depthMembers, u64, Json.maxDepth]
  omega

theorem encodeLine_eq_ok {seq : U64} {prev ts text : Bytes} {event : ReceiptEvent} :
    env.encodeLine seq prev ts event = .ok text ↔
      Json.print (eventRow seq prev ts event).toValue = some text ∧
        text.length ≤ maxLineBytes ∧ ∃ a, env.checkRow text seq prev = .ok a := by
  simp only [Env.encodeLine, bind_eq_ok, mapError_eq_ok, ensure_eq_ok, acceptsLine_iff, pure,
    Except.pure, Except.ok.injEq, exists_const]
  rw [← canonical_eq_ok (eventRow_normal seq prev ts event).1]
  constructor
  · rintro ⟨t, hc, hl, ha, rfl⟩
    exact ⟨hc, hl, ha⟩
  · rintro ⟨hc, hl, ha⟩
    exact ⟨text, hc, hl, ha, rfl⟩

/-- What the next row's line is: canonical text of a row that is accepted there. -/
structure Encoded (env : Env) (seq : U64) (prev line : Bytes) (a : Accepted) : Prop where
  check : env.checkRow line seq prev = .ok a
  noNewline : newline ∉ line
  fits : line.length ≤ maxLineBytes

theorem encodeLine_encoded {seq : U64} {prev ts text : Bytes} {event : ReceiptEvent}
    (h : env.encodeLine seq prev ts event = .ok text) : ∃ a, Encoded env seq prev text a ∧
      ReceiptEvent.ofValue event.toValue = .ok a.event := by
  obtain ⟨hp, hl, a, ha⟩ := encodeLine_eq_ok.mp h
  obtain ⟨row, event', hr, rfl⟩ := checkRow_eq_ok.mp ha
  refine ⟨_, ⟨ha, ?_, hl⟩, ?_⟩
  · intro hm
    have := Json.print_ge hp newline hm
    exact absurd this (by decide)
  · obtain ⟨hn, hd⟩ := eventRow_normal seq prev ts event
    have hv := hr.value
    unfold Env.fromStr at hv
    split at hv
    · rw [Json.parse_print hp hd, Option.map_some, Json.normalize_of_normal hn,
        Option.some.injEq] at hv
      have he : row = eventRow seq prev ts event := by
        have h1 : Row.ofValue row.toValue = .ok row :=
          Row.ofValue_toValue (fromStr_normal hr.value).2.1
        rw [← hv, Row.ofValue_toValue event.toValue_normal.1] at h1
        exact (Except.ok.inj h1).symm
      rw [← hr.decoded, he]
      rfl
    · simp at hv

theorem encodeLine_kind {seq : U64} {prev ts text : Bytes} {event : ReceiptEvent}
    (h : env.encodeLine seq prev ts event = .ok text) : ∃ a, Encoded env seq prev text a ∧
      a.event.kind = event.kind := by
  obtain ⟨a, ha, he⟩ := encodeLine_encoded h
  exact ⟨a, ha, ofValue_toValue_kind he⟩

/-- A row line starts with a brace and ends with one. -/
private theorem row_line_braces {row : Row} {line : Bytes}
    (h : Json.print row.toValue = some line) :
    ∃ mid, line = Json.openBrace :: (mid ++ [Json.closeBrace]) := by
  rw [Row.toValue_eq, Json.print, Option.map_eq_some_iff] at h
  obtain ⟨ps, _, rfl⟩ := h
  exact ⟨_, rfl⟩

/-- No proper prefix of a row line is JSON. -/
theorem prefix_torn {seq : U64} {prev line p s : Bytes} {a : Accepted}
    (h : env.checkRow line seq prev = .ok a) (hl : line = p ++ s) (hs : s ≠ []) :
    env.validJsonValue p = false := by
  obtain ⟨row, event, hr, _⟩ := checkRow_eq_ok.mp h
  obtain ⟨mid, hmid⟩ := row_line_braces hr.text
  have hlast : Json.closeBrace ∈ s := by
    have hg : line.getLast? = s.getLast? := by
      rw [hl, List.getLast?_append_of_ne_nil _ hs]
    rw [hmid] at hg
    have : s.getLast? = some Json.closeBrace := by
      rw [← hg, ← List.cons_append, List.getLast?_concat]
    exact List.mem_of_getLast? this
  have hpn : Json.parse env.floatInRange p = none := by
    cases p with
    | nil => rfl
    | cons c cs =>
      obtain rfl : c = Json.openBrace := by
        rw [hl] at hmid
        exact (List.cons.inj hmid).1
      have hv := hr.value
      unfold Env.fromStr at hv
      split at hv
      · obtain ⟨w, hw, _⟩ := Option.map_eq_some_iff.mp hv
        exact Json.parse_prefix (by decide) hlast (hl ▸ hw)
      · simp at hv
  unfold Env.validJsonValue Env.fromStr
  split
  · rw [hpn]
    rfl
  · rfl

theorem checkRow_ne_nil {seq : U64} {prev line : Bytes} {a : Accepted}
    (h : env.checkRow line seq prev = .ok a) : line ≠ [] := by
  obtain ⟨row, event, hr, _⟩ := checkRow_eq_ok.mp h
  obtain ⟨mid, rfl⟩ := row_line_braces hr.text
  simp

/-- On a file that ends in a row, an attempt is committed when the file is UTF-8 and the row
has its seq and is not a recover row. -/
theorem committedAttempt_row {pre line prev : Bytes} {seq : U64} {a : Accepted} (attempted : U64)
    (hp : Complete pre) (hl : newline ∉ line) (h : env.checkRow line seq prev = .ok a) :
    env.committedAttempt (pre ++ (line ++ [newline])) attempted =
      (Text.utf8Valid (pre ++ (line ++ [newline])) && (decide (seq = attempted) &&
        !a.event.isRecover)) := by
  obtain ⟨row, event, hr, rfl⟩ := checkRow_eq_ok.mp h
  obtain ⟨mid, hmid⟩ := row_line_braces hr.text
  have hlast : line.getLast? ≠ some 13 := by
    rw [hmid, ← List.cons_append, List.getLast?_concat]
    decide
  have hparse : ∃ w, Json.parse env.floatInRange line = some w ∧ w.normalize = row.toValue := by
    have hv := hr.value
    unfold Env.fromStr at hv
    split at hv
    · exact Option.map_eq_some_iff.mp hv
    · simp at hv
  obtain ⟨w, hw, hn⟩ := hparse
  obtain rfl := Json.parse_canonical hr.text hw hn
  unfold Env.committedAttempt
  cases hu : Text.utf8Valid (pre ++ (line ++ [newline])) with
  | false => simp
  | true =>
    simp only [Bool.true_eq_false, if_false, Bool.true_and]
    rw [Text.lines_append_line hp hl, List.map_append, List.map_cons, List.map_nil,
      List.reverse_append, List.reverse_singleton, List.singleton_append]
    simp only [hlast, Bool.true_and, decide_false, Bool.false_eq_true, if_false]
    rw [List.find?_cons_of_pos (by simpa using checkRow_ne_nil h)]
    simp only [hw, Row.ofValue_toValue (fromStr_normal hr.value).2.1, hr.decoded, hr.seq_eq]

/-! A gap row and a recover row fit and are accepted wherever a row may follow. -/

theorem tsOk_length {ts : Bytes} (h : tsOk ts = true) : ts.length = 24 := by
  simp only [tsOk, Bool.and_eq_true, decide_eq_true_eq] at h
  exact h.1.1.1

/-- A timestamp is ASCII from `-` on, so it has no whitespace. -/
theorem tsOk_range {ts : Bytes} (h : tsOk ts = true) : ∀ c ∈ ts, 45 ≤ c ∧ c < 128 := by
  intro c hc
  obtain ⟨i, hi, rfl⟩ := List.getElem_of_mem hc
  have hl := tsOk_length h
  simp only [tsOk, Bool.and_eq_true, List.all_cons, List.all_nil, decide_eq_true_eq,
    and_true] at h
  obtain ⟨⟨⟨_, hm⟩, hd⟩, _⟩ := h
  have digit {j : Nat} (hj : j < ts.length) (h : (ts[j]?).any Text.isDigit = true) :
      45 ≤ ts[j] ∧ ts[j] < 128 := by
    rw [List.getElem?_eq_getElem hj] at h
    have hd : Text.isDigit ts[j] = true := h
    refine ⟨?_, Text.isDigit_lt hd⟩
    rw [Text.isDigit_iff] at hd
    exact UInt8.le_iff_toNat_le.mpr (Nat.le_trans (by decide) hd.1)
  have mark {j : Nat} {b : UInt8} (hj : j < ts.length) (h : ts[j]? = some b)
      (hb : 45 ≤ b ∧ b < 128) : 45 ≤ ts[j] ∧ ts[j] < 128 := by
    rw [List.getElem?_eq_getElem hj, Option.some.injEq] at h
    exact h ▸ hb
  obtain ⟨m4, m7, m10, m13, m16, m19, m23⟩ := hm
  obtain ⟨d0, d1, d2, d3, d5, d6, d8, d9, d11, d12, d14, d15, d17, d18, d20, d21, d22⟩ := hd
  rw [hl] at hi
  interval_cases i
  all_goals
    first
    | exact digit _ (by assumption)
    | exact mark _ (by assumption) (by decide)

private theorem tsOk_ascii {ts : Bytes} (h : tsOk ts = true) : ∀ c ∈ ts, c < 128 :=
  fun c hc => (tsOk_range h c hc).2

private theorem digestOk_ascii {d : Bytes} (h : digestOk d = true) :
    d.length = 64 ∧ ∀ c ∈ d, c < 128 := by
  simp only [digestOk, Bool.and_eq_true, decide_eq_true_eq, List.all_eq_true] at h
  exact ⟨h.1, fun c hc => Text.isLowerHex_lt (h.2 c hc)⟩

/-- An event of short ASCII fields encodes wherever a row of its kind may follow. -/
private theorem plain_encodes (env : Env) {seq : U64} {prev ts : Bytes} {event : ReceiptEvent}
    (hplain : event.toValue.Plain) (hroom : event.toValue.room ≤ 2000)
    (hsig : hasSig event.toValue = false)
    (hdecoded : ReceiptEvent.ofValue event.toValue = .ok event) (hgap : gapOk event = true)
    (hdigests : digestsOk event = true) (hgenesis : event.isGenesis ↔ seq = 0)
    (hp : digestOk prev = true) (ht : tsOk ts = true) :
    ∃ line, env.encodeLine seq prev ts event = .ok line := by
  obtain ⟨hplen, hpa⟩ := digestOk_ascii hp
  have hrow : (eventRow seq prev ts event).toValue.Plain ∧
      (eventRow seq prev ts event).toValue.room ≤ maxLineBytes := by
    have hk : ∀ k ∈ ["e", "prev", "seq", "ts", "v"],
        (∀ c ∈ ascii k, c < 128) ∧ (ascii k).length ≤ 4 := by decide +kernel
    simp only [List.forall_mem_cons] at hk
    obtain ⟨k1, k2, k3, k4, k5, _⟩ := hk
    have htlen := tsOk_length ht
    rw [Row.toValue_eq]
    refine ⟨⟨k1.1, hplain, k2.1, hpa, k3.1, trivial, k4.1, tsOk_ascii ht, k5.1, trivial, trivial⟩, ?_⟩
    simp only [Row.members, eventRow, u64, Json.room, Json.roomMembers, maxLineBytes]
    omega
  obtain ⟨hn, hd⟩ := eventRow_normal seq prev ts event
  obtain ⟨line, htext, hfits⟩ := Json.print_fits hrow.1
  have hval : env.fromStr line = some (eventRow seq prev ts event).toValue := by
    rw [Env.fromStr, if_pos (Text.utf8Valid_ascii hfits.lt), Json.parse_print htext hd,
      Option.map_some, Json.normalize_of_normal hn]
  have hisrow : IsRow env line seq prev (eventRow seq prev ts event) event :=
    { value := hval
      text := htext
      noSig := by
        rw [Row.toValue_eq]
        simp only [hasSig, Row.members, eventRow, hasSigMembers, u64, hsig, Bool.or_false,
          List.any_cons, List.any_nil]
        rfl
      version := rfl
      seq_eq := rfl
      prev_eq := rfl
      digest := hp
      clock := ht
      decoded := hdecoded
      genesis := hgenesis
      gap := hgap
      digests := hdigests }
  exact ⟨line, encodeLine_eq_ok.mpr ⟨htext, hfits.length.trans hrow.2, _,
    checkRow_eq_ok.mpr ⟨_, _, hisrow, rfl⟩⟩⟩

theorem gap_encodes (env : Env) {seq : U64} {prev ts first last : Bytes} (n : U64) (hseq : seq ≠ 0)
    (hp : digestOk prev = true) (ht : tsOk ts = true) (hf : tsOk first = true)
    (hl : tsOk last = true) (hle : first ≤ last) :
    ∃ line, env.encodeLine seq prev ts (.gap n first last) = .ok line := by
  have hk : ∀ k ∈ ["dropped", "first_at", "kind", "gap", "last_at"],
      (∀ c ∈ ascii k, c < 128) ∧ (ascii k).length ≤ 10 := by decide +kernel
  simp only [List.forall_mem_cons] at hk
  obtain ⟨k1, k2, k3, k4, k5, _⟩ := hk
  have hv : (ReceiptEvent.gap n first last).toValue =
      .obj [(ascii "dropped", u64 n), (ascii "first_at", .str first),
        (ascii "kind", .str (ascii "gap")), (ascii "last_at", .str last)] := rfl
  have hflen := tsOk_length hf
  have hllen := tsOk_length hl
  refine plain_encodes env ?_ ?_ rfl rfl (by simp [gapOk, hf, hl, hle]) rfl
    (by simpa [ReceiptEvent.isGenesis] using hseq) hp ht
  · rw [hv]
    exact ⟨k1.1, trivial, k2.1, tsOk_ascii hf, k3.1, k4.1, k5.1, tsOk_ascii hl, trivial⟩
  · rw [hv]
    simp only [u64, Json.room, Json.roomMembers]
    omega

theorem recover_encodes (env : Env) {seq : U64} {prev ts sha : Bytes} (off len : U64)
    (hseq : seq ≠ 0) (hp : digestOk prev = true) (ht : tsOk ts = true) (hs : digestOk sha = true) :
    ∃ line, env.encodeLine seq prev ts (.recover off len sha) = .ok line := by
  have hk : ∀ k ∈ ["kind", "recover", "torn_len", "torn_offset", "torn_sha256"],
      (∀ c ∈ ascii k, c < 128) ∧ (ascii k).length ≤ 11 := by decide +kernel
  simp only [List.forall_mem_cons] at hk
  obtain ⟨k1, k2, k3, k4, k5, _⟩ := hk
  have hv : (ReceiptEvent.recover off len sha).toValue =
      .obj [(ascii "kind", .str (ascii "recover")), (ascii "torn_len", u64 len),
        (ascii "torn_offset", u64 off), (ascii "torn_sha256", .str sha)] := rfl
  obtain ⟨hslen, hsa⟩ := digestOk_ascii hs
  refine plain_encodes env ?_ ?_ rfl rfl rfl (by simpa [digestsOk] using hs)
    (by simpa [ReceiptEvent.isGenesis] using hseq) hp ht
  · rw [hv]
    exact ⟨k1.1, k2.1, k3.1, trivial, k4.1, trivial, k5.1, hsa, trivial⟩
  · rw [hv]
    simp only [u64, Json.room, Json.roomMembers]
    omega

/-- A SHA-256 in hex is a digest. -/
theorem sha256Hex_digestOk (env : Env) (bytes : Bytes) : digestOk (env.sha256Hex bytes) = true := by
  simp only [digestOk, Bool.and_eq_true, decide_eq_true_eq, List.all_eq_true]
  exact ⟨by rw [Env.sha256Hex, Text.hex_length, (env.sha256 bytes).property], Text.hex_lower _⟩

end PulseNull.Oneself
