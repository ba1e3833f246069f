import PulseNull.Coordinator.WalLine

/-! What the log writes for an event, and that it is read back. -/
namespace PulseNull.Coordinator
open Text (ascii newline)
open Time (DateTime Duration)
variable {chrono : Chrono}

/-! A written value is read as what was written. -/

private theorem duration_ofValue_toValue (d : Duration) :
    Duration.ofValue (Duration.toValue d) = .ok d := by
  obtain ⟨secs, subsec⟩ := d
  have hlt : subsec.val < 2^32 := subsec.isLt.trans (by decide)
  have hn : Json.decodeU32 (u32 ⟨subsec.val, hlt⟩) = .ok ⟨subsec.val, hlt⟩ :=
    Json.decodeU32_eq_ok.mpr rfl
  have hs : Json.decodeU64 (u64 secs) = .ok secs := rfl
  have hp : Duration.ofParts secs ⟨subsec.val, hlt⟩ = .ok ⟨secs, subsec⟩ := by
    have h0 : subsec.val / 1000000000 = 0 := Nat.div_eq_of_lt subsec.isLt
    have hc : secs.checkedAdd 0 = some secs := dif_pos secs.isLt
    simp [Duration.ofParts, h0, hc, Nat.mod_eq_of_lt subsec.isLt]
  simp +decide [Duration.ofValue, Duration.toValue, Json.recordMembers, Json.visit, Json.Field.of,
    ensure, Json.required, Json.lookup, hn, hs, hp, Except.map, bind, Except.bind, pure, Except.pure]

private theorem dateTime_ofValue_toValue (t : DateTime) :
    DateTime.ofValue chrono (DateTime.toValue chrono t) = .ok t := by
  simp [DateTime.ofValue, DateTime.toValue, Json.decodeStr, chrono.parse_fmt, bind, Except.bind]

private theorem lease_ofValue_toValue (l : Lease) :
    Lease.ofValue chrono (l.toValue chrono) = .ok l := by
  have hs (s : Bytes) : Json.decodeStr (.str s) = .ok s := rfl
  have hu : Json.decodeU64 (u64 l.fencingToken) = .ok l.fencingToken := rfl
  simp +decide [Lease.ofValue, Lease.toValue, Json.recordMembers, Json.visit, Json.Field.of,
    ensure, Json.required, Json.lookup, hs, hu, dateTime_ofValue_toValue, duration_ofValue_toValue,
    Except.map, bind, Except.bind, pure, Except.pure]

private theorem grant_ofValue (event : DateTime → Lease → LeaseEvent) (ts : DateTime) (l : Lease) :
    grantOfValue chrono event (.obj [(ascii "ts", DateTime.toValue chrono ts),
      (ascii "lease", l.toValue chrono)]) = .ok (event ts l) := by
  simp +decide [grantOfValue, Json.openMembers, Json.recordMembers, Json.visit, Json.Field.of,
    ensure, Json.required, Json.lookup, dateTime_ofValue_toValue, lease_ofValue_toValue,
    Except.map, bind, Except.bind, pure, Except.pure]

private theorem event_ofValue_toValue (e : LeaseEvent) :
    LeaseEvent.ofValue chrono (e.toValue chrono) = .ok e := by
  have hs (s : Bytes) : Json.decodeStr (.str s) = .ok s := rfl
  cases e with
  | acquired ts l | reclaimed ts l | renewed ts l =>
    simp +decide [LeaseEvent.ofValue, LeaseEvent.toValue, Json.tagOnce, Json.splitTag, ensure,
      Json.required, Json.lookup, hs, grant_ofValue, bind, Except.bind, pure, Except.pure]
  | released ts r h =>
    simp +decide [LeaseEvent.ofValue, LeaseEvent.toValue, Json.tagOnce, Json.splitTag, ensure,
      Json.required, Json.lookup, hs, releasedOfValue, Json.openMembers, Json.recordMembers,
      Json.visit, Json.Field.of, dateTime_ofValue_toValue, Except.map, bind, Except.bind, pure,
      Except.pure]

theorem walLine_ofValue_toValue (e : LeaseEvent) :
    WalLine.ofValue chrono (WalLineRef.toValue chrono e) = .ok ⟨walVersion, e⟩ := by
  have hv : Json.decodeU32 (u32 walVersion) = .ok walVersion := Json.decodeU32_eq_ok.mpr rfl
  simp +decide [WalLine.ofValue, WalLineRef.toValue, Json.recordMembers, Json.visit, Json.Field.of,
    ensure, Json.required, Json.lookup, hv, event_ofValue_toValue, Except.map, bind, Except.bind,
    pure, Except.pure]

/-! The text of an event whose ids are valid. -/

/-- An id the table takes. -/
structure IdOk (id : Bytes) : Prop where
  nonempty : id ≠ []
  short : id.length ≤ maxIdBytes
  bytes : ∀ c ∈ id, isIdByte c = true

theorem validateId_eq_ok {kind : IdKind} {id : Bytes} {u : Unit} :
    validateId kind id = .ok u ↔ IdOk id := by
  rw [validateId, ensure_eq_ok, List.all_eq_true]
  exact ⟨fun h => ⟨h.1, h.2.1, h.2.2⟩, fun h => ⟨h.nonempty, h.short, h.bytes⟩⟩

private theorem isIdByte_lt {c : UInt8} (h : isIdByte c = true) : c < 128 := by
  revert h
  revert c
  decide +kernel

theorem IdOk.ascii {id : Bytes} (h : IdOk id) : ∀ c ∈ id, c < 128 :=
  fun c hc => isIdByte_lt (h.bytes c hc)

/-- An event that names a resource and a holder the table takes. -/
def LeaseEvent.IdsOk : LeaseEvent → Prop
  | .acquired _ l | .reclaimed _ l | .renewed _ l => IdOk l.resourceId ∧ IdOk l.holderId
  | .released _ r h => IdOk r ∧ IdOk h

private theorem lease_plain (chrono : Chrono) {l : Lease} (hr : IdOk l.resourceId) (hh : IdOk l.holderId) :
    (l.toValue chrono).Plain ∧ (l.toValue chrono).room ≤ 2800 := by
  have hk : ∀ k ∈ ["resource_id", "holder_id", "fencing_token", "granted_at", "ttl", "secs",
      "nanos"], (∀ c ∈ ascii k, c < 128) ∧ (ascii k).length ≤ 13 := by
    simp only [List.forall_mem_cons]
    refine ⟨?_, ?_, ?_, ?_, ?_, ?_, ?_, List.forall_mem_nil _⟩
    all_goals
      rw [ascii, String.toList_ofList]
      simp
  simp only [List.forall_mem_cons] at hk
  obtain ⟨k1, k2, k3, k4, k5, k6, k7, _⟩ := hk
  have hg := chrono.fmt_short l.grantedAt
  have h1 := hr.short
  have h2 := hh.short
  unfold maxIdBytes at h1 h2
  constructor
  · exact ⟨k1.1, hr.ascii, k2.1, hh.ascii, k3.1, trivial, k4.1, chrono.fmt_ascii _, k5.1,
      ⟨k6.1, trivial, k7.1, trivial, trivial⟩, trivial⟩
  · simp only [Lease.toValue, DateTime.toValue, Duration.toValue, u64, u32, Json.room,
      Json.roomMembers]
    omega

private theorem event_plain (chrono : Chrono) {e : LeaseEvent} (h : e.IdsOk) :
    (e.toValue chrono).Plain ∧ (e.toValue chrono).room ≤ 3800 := by
  have hk : ∀ k ∈ ["event", "ts", "lease", "resource_id", "holder_id", "acquired", "reclaimed",
      "renewed", "released"], (∀ c ∈ ascii k, c < 128) ∧ (ascii k).length ≤ 11 := by
    simp only [List.forall_mem_cons]
    refine ⟨?_, ?_, ?_, ?_, ?_, ?_, ?_, ?_, ?_, List.forall_mem_nil _⟩
    all_goals
      rw [ascii, String.toList_ofList]
      simp
  simp only [List.forall_mem_cons] at hk
  obtain ⟨k1, k2, k3, k4, k5, k6, k7, k8, k9, _⟩ := hk
  cases e with
  | acquired ts l | reclaimed ts l | renewed ts l =>
    obtain ⟨hp, hr⟩ := lease_plain chrono h.1 h.2
    have ht := chrono.fmt_short ts
    constructor
    · refine ⟨k1.1, ?_, k2.1, chrono.fmt_ascii ts, k3.1, hp, trivial⟩
      first | exact k6.1 | exact k7.1 | exact k8.1
    · simp only [LeaseEvent.toValue, DateTime.toValue, Json.room, Json.roomMembers]
      omega
  | released ts r hid =>
    have ht := chrono.fmt_short ts
    have h1 := h.1.short
    have h2 := h.2.short
    unfold maxIdBytes at h1 h2
    constructor
    · exact ⟨k1.1, k9.1, k2.1, chrono.fmt_ascii ts, k4.1, h.1.ascii, k5.1, h.2.ascii, trivial⟩
    · simp only [LeaseEvent.toValue, DateTime.toValue, Json.room, Json.roomMembers]
      omega

private theorem event_depth (e : LeaseEvent) :
    (WalLineRef.toValue chrono e).depth ≤ Json.maxDepth := by
  cases e <;> simp [WalLineRef.toValue, LeaseEvent.toValue, Lease.toValue, DateTime.toValue,
    Duration.toValue, u64, u32, Json.depth, Json.depthMembers, Json.maxDepth]

/-- The line of an event: it has no newline, is not blank, fits, and reads as the event. -/
structure Written (chrono : Chrono) (inRange : Bytes → Bool) (e : LeaseEvent) (line : Bytes) : Prop where
  text : walLine chrono e = some line
  noNewline : newline ∉ line
  visible : ∃ c ∈ line, c = Json.openBrace
  fits : line.length ≤ 4096
  parsed : parseWalLine chrono inRange line = some ⟨walVersion, e⟩

theorem written (chrono : Chrono) (inRange : Bytes → Bool) {e : LeaseEvent} (h : e.IdsOk) :
    ∃ line, Written chrono inRange e line := by
  obtain ⟨hp, hr⟩ := event_plain chrono h
  have hk : ∀ k ∈ ["v", "e"], (∀ c ∈ ascii k, c < 128) ∧ (ascii k).length ≤ 1 := by
    simp only [List.forall_mem_cons]
    refine ⟨?_, ?_, List.forall_mem_nil _⟩
    all_goals
      rw [ascii, String.toList_ofList]
      simp
  simp only [List.forall_mem_cons] at hk
  obtain ⟨k1, k2, _⟩ := hk
  obtain ⟨line, ht, hf⟩ := Json.print_fits (v := WalLineRef.toValue chrono e)
    ⟨k1.1, trivial, k2.1, hp, trivial⟩
  refine ⟨line, ht, ?_, ?_, ?_, ?_⟩
  · intro hm
    exact absurd (Json.print_ge ht newline hm) (by decide)
  · obtain ⟨ps, _, rfl⟩ := Option.map_eq_some_iff.mp ht
    exact ⟨Json.openBrace, List.mem_cons_self, rfl⟩
  · refine hf.length.trans ?_
    simp only [WalLineRef.toValue, u32, Json.room, Json.roomMembers]
    omega
  · rw [parseWalLine, if_pos (Text.utf8Valid_ascii hf.lt), Json.parse_print ht (event_depth e),
      Option.bind_some, walLine_ofValue_toValue]
    rfl

end PulseNull.Coordinator
