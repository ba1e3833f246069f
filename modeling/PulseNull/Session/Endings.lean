import PulseNull.Session.Store

/-! What each ending of a session leaves of its two lanes, in the archives and in its file, and
where the WAL counter of its key stands. -/
namespace PulseNull.Session
open Text (ascii)

/-- A message is in an archive of the key. -/
def Memory.Archived (mem : Memory) (key : Bytes) (m : Message) : Prop :=
  (∃ a ∈ mem.conversations, a.metadata.sessionKey = some key ∧ m ∈ a.conversation) ∨
    ∃ q ∈ mem.quarantine, q.1 = key ∧ m ∈ q.2

/-- A message is in the persisted file of the key. -/
def Store.Filed (s : Store) (key : Bytes) (m : Message) : Prop :=
  ∃ data ∈ s.files.lookup (sessionFilename key), data.key = key ∧ m ∈ data.lanes

/-- The WAL counter of the session held for a key is past every entry of its WAL. -/
def Store.Covers (s : Store) (key : Bytes) : Prop :=
  ∀ session ∈ s.sessions.lookup key, ∀ e ∈ s.wal.read key, e.seq < session.data.walSeq + 1

/-- The ways a session ends. `expire` is an expired file met on loading; `loadOver` loads a file
while a session is held for its key, and includes the write of that session. -/
inductive Ending where
  | reset (key : Bytes) (now : Int) (o : Outcomes)
  | sweep (clock : Bytes → Int) (o : Bytes → Outcomes)
  | expire (name : Bytes) (now : Int) (o : Outcomes)
  | loadOver (name : Bytes) (now : Int) (o : Outcomes)
  | shutdown (o : Bytes → Outcomes)

variable {env : StoreEnv} {s : Store} {key : Bytes} {m : Message}

/-- The session that the file `name` loads as. -/
def Store.loads (env : StoreEnv) (s : Store) (name : Bytes) : Option LiveSession :=
  (s.files.lookup name).map (loadedSession env)

/-- The sessions an ending ends. -/
def Ending.Ends (env : StoreEnv) (s : Store) : Ending → SessionData → Prop
  | .reset key _ _, data =>
    ∃ session ∈ s.sessions.lookup key, session.data.messages ≠ [] ∧ session.data = data
  | .sweep clock _, data =>
    ∃ key, ∃ session ∈ s.sessions.lookup key,
      session.isExpired (clock key) env.ttlSeconds = true ∧ session.data = data
  | .expire name now _, data =>
    ∃ session ∈ s.loads env name, session.isExpired now env.ttlSeconds = true ∧ session.data = data
  | .loadOver name now _, data =>
    ∃ session ∈ s.loads env name, session.isExpired now env.ttlSeconds = false ∧
      (s.sessions.lookup data.key).isSome ∧ session.data = data
  | .shutdown _, data => ∃ key, ∃ session ∈ s.sessions.lookup key, session.data = data

def Ending.run (env : StoreEnv) (s : Store) : Ending → Store
  | .reset key now o => s.reset env key now o
  | .sweep clock o => s.cleanupExpired env clock o
  | .expire name now o => s.loadSessionFile env name now o
  | .loadOver name now o =>
    match s.loads env name with
    | some session => (s.loadSessionFile env name now o).persist session.data.key o.persisted
    | none => s
  | .shutdown o => s.archiveAll env o

/-- The store once a loading file of an old key has been removed. -/
def Store.migrated (env : StoreEnv) (s : Store) (name : Bytes) : Store :=
  if (s.loads env name).any LiveSession.dirty then s.removeFile name else s

/-- The archive of the trunk was written, and the message is in it. -/
def Outcomes.WroteTrunk (o : Outcomes) (data : SessionData) (m : Message) : Prop :=
  o.ended.archive ≠ .failed ∧ m ∈ data.messages

/-- The archive of the quarantine lane was written, and the message is in it. -/
def Outcomes.WroteQuarantine (o : Outcomes) (data : SessionData) (m : Message) : Prop :=
  o.quarantine = true ∧ m ∈ data.quarantine

/-- The ending itself saves a message: a reset and a shutdown write both lanes, the sweep and an
expired file the trunk, and a merge what the held session then has. -/
def Ending.Saves (env : StoreEnv) (s : Store) (data : SessionData) (m : Message) : Ending → Prop
  | .reset _ _ o => o.WroteTrunk data m ∨ o.WroteQuarantine data m ∨
      if o.persisted then m ∈ env.opening data else s.Filed data.key m
  | .sweep _ o => (o data.key).WroteTrunk data m
  | .expire name _ o => o.WroteTrunk data m ∨ (s.removeFile name).Filed data.key m
  | .loadOver name _ o =>
      if o.persisted then
        m ∈ data.messages ∨ ∃ session ∈ s.sessions.lookup data.key, m ∈ session.data.lanes
      else (s.migrated env name).Filed data.key m
  | .shutdown o => (o data.key).WroteTrunk data m ∨ (o data.key).WroteQuarantine data m ∨
      (s.persistAll o).Filed data.key m

/-- No session is held for the key once the sweep has removed it. -/
def Ending.survives : Ending → Bool
  | .sweep .. => false
  | _ => true

/-- What keeps both lanes of `data`: each settled message is archived already or saved, and the
session that survives counts on past its WAL. -/
structure Ending.Spares (env : StoreEnv) (s : Store) (e : Ending) (data : SessionData) : Prop where
  kept : ∀ m ∈ data.settled, s.memory.Archived data.key m ∨ e.Saves env s data m
  counter : e.survives = true → s.Covers data.key

/-- After the ending of `data`: its settled messages are archived or in a file, and a session held
for its key counts on past its WAL. -/
structure Intact (after : Store) (data : SessionData) : Prop where
  kept : ∀ m ∈ data.settled, after.memory.Archived data.key m ∨ after.Filed data.key m
  counter : after.Covers data.key

/-! What an archive write adds. -/

theorem archived_endSession {strip : Bytes → Bytes} {mem : Memory} {o : EndOutcome}
    {conversation : List Message} {metadata : ArchiveMeta} :
    (endSession strip mem o conversation metadata).1.Archived key m ↔
      mem.Archived key m ∨
        metadata.sessionKey = some key ∧ o.archive ≠ .failed ∧ m ∈ conversation := by
  unfold endSession
  split
  · next h => simp [h]
  next hne =>
  have hs (archived : Memory) : (writeEphemeralSummary strip archived o.ephemeral metadata.pulseName
      conversation).Archived key m ↔ archived.Archived key m := by
    unfold writeEphemeralSummary
    split <;> rfl
  obtain ⟨first, rest, rfl⟩ := List.exists_cons_of_ne_nil hne
  simp only [hs]
  cases ho : o.archive <;>
    simp only [archiveConversation, Memory.Archived, List.mem_append, List.mem_singleton, ne_eq,
      reduceCtorEq, not_false_eq_true, true_and, not_true_eq_false, false_and, and_false, or_false,
      or_and_right, exists_or, exists_eq_left]
  · exact or_right_comm
  · exact or_right_comm

theorem archived_archiveQuarantine {mem : Memory} {ok : Bool} {other : Bytes}
    {quarantine : List Message} : (archiveQuarantine mem ok other quarantine).Archived key m ↔
      mem.Archived key m ∨ other = key ∧ ok = true ∧ m ∈ quarantine := by
  unfold archiveQuarantine
  split
  · next h =>
    simp only [Bool.or_eq_true, decide_eq_true_eq, Bool.not_eq_true'] at h
    rcases h with h | h <;> simp [h]
  · next h =>
    simp only [Bool.or_eq_true, decide_eq_true_eq, Bool.not_eq_true', not_or,
      Bool.not_eq_false] at h
    simp only [Memory.Archived, List.mem_append, List.mem_singleton, or_and_right, exists_or,
      exists_eq_left, h.2, true_and]
    exact or_assoc.symm

/-- A trunk of no messages adds nothing. -/
theorem archived_trunk {strip : Bytes → Bytes} {mem : Memory} {o : EndOutcome}
    {conversation : List Message} {metadata : ArchiveMeta} :
    (if conversation = [] then mem
      else (endSession strip mem o conversation metadata).1).Archived key m ↔
      mem.Archived key m ∨
        metadata.sessionKey = some key ∧ o.archive ≠ .failed ∧ m ∈ conversation := by
  split
  · next h => simp [h]
  · exact archived_endSession

/-! What a write of a session file leaves. -/

@[simp] theorem setMemory_filed {mem : Memory} : (s.setMemory mem).Filed key m ↔ s.Filed key m := .rfl

@[simp] theorem insertSession_filed {session : LiveSession} :
    (s.insertSession session).Filed key m ↔ s.Filed key m := .rfl

@[simp] theorem removeSession_filed {other : Bytes} :
    (s.removeSession other).Filed key m ↔ s.Filed key m := .rfl

theorem Store.Filed.of_removeFile {name : Bytes} (h : (s.removeFile name).Filed key m) :
    s.Filed key m := by
  obtain ⟨data, hd, hk, hm⟩ := h
  refine ⟨data, ?_, hk, hm⟩
  by_cases hn : sessionFilename key = name
  · simp [Store.removeFile, ← hn] at hd
  · simpa [Store.removeFile, AList.lookup_erase_ne hn] using hd

theorem not_filed_removeFile : ¬ (s.removeFile (sessionFilename key)).Filed key m := by
  rintro ⟨data, hd, _⟩
  simp [Store.removeFile] at hd

theorem persistData_filed {data : SessionData} {ok : Bool} (hk : data.key = key) :
    (s.persistData data ok).Filed key m ↔ if ok then m ∈ data.lanes else s.Filed key m := by
  unfold Store.persistData
  cases ok
  · rfl
  · subst hk
    simp [Store.Filed, SessionData.stored, SessionData.lanes]

theorem persist_filed {session : LiveSession} {ok : Bool} (h : s.sessions.lookup key = some session)
    (hd : session.dirty = true) : (s.persist key ok).Filed key m ↔
      if ok then m ∈ session.data.lanes else s.Filed key m := by
  rw [Store.persist, h]
  simp only [hd, if_true, insertSession_filed]
  exact persistData_filed (s.keyed key session h)

@[simp] theorem persistData_memory {data : SessionData} {ok : Bool} :
    (s.persistData data ok).memory = s.memory := by
  unfold Store.persistData
  split <;> rfl

@[simp] theorem persistData_wal {data : SessionData} {ok : Bool} :
    (s.persistData data ok).wal = s.wal := by
  unfold Store.persistData
  split <;> rfl

@[simp] theorem persistData_sessions {data : SessionData} {ok : Bool} :
    (s.persistData data ok).sessions = s.sessions := by
  unfold Store.persistData
  split <;> rfl

@[simp] theorem persist_memory {ok : Bool} : (s.persist key ok).memory = s.memory := by
  unfold Store.persist
  split
  · split
    · exact persistData_memory
    · rfl
  · rfl

@[simp] theorem persist_wal {ok : Bool} : (s.persist key ok).wal = s.wal := by
  unfold Store.persist
  split
  · split
    · exact persistData_wal
    · rfl
  · rfl

/-- A write of session files leaves the sessions, but for their dirty marks. -/
theorem persist_lookup {other : Bytes} {ok : Bool} :
    ((s.persist other ok).sessions.lookup key).map LiveSession.data =
      (s.sessions.lookup key).map LiveSession.data := by
  unfold Store.persist
  split
  · next session h =>
    split
    · simp only [Store.insertSession, persistData_sessions]
      by_cases hk : key = session.data.key
      · rw [hk, AList.lookup_insert, s.keyed other session h, h]
        rfl
      · rw [AList.lookup_insert_ne hk]
    · rfl
  · rfl

/-- The counters of a store depend on the sessions and the WAL. -/
theorem covers_congr {s' : Store} (hw : s'.wal = s.wal)
    (hs : (s'.sessions.lookup key).map LiveSession.data =
      (s.sessions.lookup key).map LiveSession.data) : s'.Covers key ↔ s.Covers key := by
  have reads (t : Store) : t.Covers key ↔ ∀ data ∈ (t.sessions.lookup key).map LiveSession.data,
      ∀ e ∈ t.wal.read key, e.seq < data.walSeq + 1 := by
    unfold Store.Covers
    cases t.sessions.lookup key <;> simp
  rw [reads, reads, hw, hs]

/-! Reset. -/

theorem intact_iff {after : Store} {e : Ending} {data : SessionData}
    (hkept : ∀ m, after.memory.Archived data.key m ∨ after.Filed data.key m ↔
      s.memory.Archived data.key m ∨ e.Saves env s data m)
    (hcounter : after.Covers data.key ↔ (e.survives = true → s.Covers data.key)) :
    Intact after data ↔ e.Spares env s data := by
  constructor
  · intro h
    exact ⟨fun m hm => (hkept m).mp (h.kept m hm), hcounter.mp h.counter⟩
  · intro h
    exact ⟨fun m hm => (hkept m).mpr (h.kept m hm), hcounter.mpr h.counter⟩

theorem reset_intact {session : LiveSession} {now : Int} {o : Outcomes}
    (h : s.sessions.lookup key = some session) (hne : session.data.messages ≠ []) :
    Intact (s.reset env key now o) session.data ↔
      (Ending.reset key now o).Spares env s session.data := by
  have hk := s.keyed key session h
  obtain ⟨fresh, hfresh, hlanes, hfk, hseq⟩ : ∃ fresh, beginFresh env now session.data =
      some (session.data, fresh) ∧ fresh.lanes = env.opening session.data ∧ fresh.key = key ∧
      fresh.walSeq = session.data.walSeq := by
    refine ⟨_, if_neg (by simp [hne]), ?_, hk, rfl⟩
    simp [SessionData.lanes]
  generalize hmem : archiveQuarantine
    (endSession env.strip s.memory o.ended session.data.messages
      (endedMeta env "session-reset" session.data session.data.key)).1 o.quarantine
      session.data.key session.data.quarantine = mem
  have hrun : s.reset env key now o =
      ((s.setMemory mem).insertSession ⟨fresh, true⟩).persist key o.persisted := by
    rw [Store.reset, h]
    simp only [hne, if_false, resetSession, hfresh, hmem]
  have hlookup : ((s.setMemory mem).insertSession ⟨fresh, true⟩).sessions.lookup key =
      some ⟨fresh, true⟩ := by
    rw [← hfk]
    exact AList.lookup_insert _
  refine intact_iff (fun m => ?_) ?_
  · rw [hrun, persist_memory, hk, persist_filed hlookup rfl]
    change mem.Archived key m ∨ _ ↔ _
    rw [← hmem, archived_archiveQuarantine, archived_endSession, hlanes]
    simp only [endedMeta, hk, true_and, Ending.Saves, Outcomes.WroteTrunk, Outcomes.WroteQuarantine,
      insertSession_filed, setMemory_filed, or_assoc]
  · rw [hrun, covers_congr persist_wal persist_lookup, hk]
    simp only [Store.Covers, hlookup, h, Option.mem_some_iff, forall_eq', hseq, Ending.survives,
      true_imp_iff]
    rfl

/-! The sweep. -/

theorem sweepOne_other {o : Bytes → Outcomes} {other : Bytes} (hne : key ≠ other) :
    (Store.sweepOne env o s other).sessions.lookup key = s.sessions.lookup key ∧
      ((Store.sweepOne env o s other).memory.Archived key m ↔ s.memory.Archived key m) ∧
      ((Store.sweepOne env o s other).Filed key m → s.Filed key m) := by
  unfold Store.sweepOne
  split
  · exact ⟨rfl, .rfl, id⟩
  · refine ⟨AList.lookup_erase_ne hne, ?_, fun h => h.of_removeFile⟩
    refine (archived_trunk).trans (or_iff_left ?_)
    rintro ⟨hk, _⟩
    exact hne (Option.some.inj hk).symm

theorem sweepOne_own {o : Bytes → Outcomes} {session : LiveSession}
    (h : s.sessions.lookup key = some session) :
    (Store.sweepOne env o s key).sessions.lookup key = none ∧
      ((Store.sweepOne env o s key).memory.Archived key m ↔
        s.memory.Archived key m ∨ (o key).WroteTrunk session.data m) ∧
      ¬ (Store.sweepOne env o s key).Filed key m := by
  rw [Store.sweepOne, h]
  refine ⟨AList.lookup_erase _ _, archived_trunk.trans ?_, not_filed_removeFile⟩
  simp [endedMeta, Outcomes.WroteTrunk]

/-- The sweep touches no session that is not on its list. -/
theorem sweep_other {o : Bytes → Outcomes} {keys : List Bytes} (hk : key ∉ keys) :
    (keys.foldl (Store.sweepOne env o) s).sessions.lookup key = s.sessions.lookup key ∧
      ((keys.foldl (Store.sweepOne env o) s).memory.Archived key m ↔ s.memory.Archived key m) ∧
      ((keys.foldl (Store.sweepOne env o) s).Filed key m → s.Filed key m) := by
  induction keys generalizing s with
  | nil => exact ⟨rfl, .rfl, id⟩
  | cons other keys ih =>
    rw [List.mem_cons, not_or] at hk
    obtain ⟨hl, ha, hf⟩ := @sweepOne_other env s key m o other hk.1
    obtain ⟨hl', ha', hf'⟩ := @ih (Store.sweepOne env o s other) hk.2
    exact ⟨hl'.trans hl, ha'.trans ha, fun h => hf (hf' h)⟩

/-- A session on the list is gone, with its file, and its trunk is archived. -/
theorem sweep_own {o : Bytes → Outcomes} {keys : List Bytes} (hnd : keys.Nodup) (hk : key ∈ keys)
    {session : LiveSession} (h : s.sessions.lookup key = some session) :
    (keys.foldl (Store.sweepOne env o) s).sessions.lookup key = none ∧
      ((keys.foldl (Store.sweepOne env o) s).memory.Archived key m ↔
        s.memory.Archived key m ∨ (o key).WroteTrunk session.data m) ∧
      ¬ (keys.foldl (Store.sweepOne env o) s).Filed key m := by
  induction keys generalizing s with
  | nil => exact nomatch hk
  | cons other keys ih =>
    rw [List.nodup_cons] at hnd
    rcases eq_or_ne key other with rfl | hne
    · obtain ⟨hl, ha, hf⟩ := @sweepOne_own env s key m o session h
      obtain ⟨hl', ha', hf'⟩ := @sweep_other env (Store.sweepOne env o s key) key m o keys hnd.1
      exact ⟨hl'.trans hl, ha'.trans ha, fun h => hf (hf' h)⟩
    · obtain ⟨hl, ha, hf⟩ := @sweepOne_other env s key m o other hne
      obtain ⟨hl', ha', hf'⟩ := @ih (Store.sweepOne env o s other) hnd.2
        (List.mem_of_ne_of_mem hne hk) (hl.trans h)
      exact ⟨hl', ha'.trans (or_congr_left ha), hf'⟩

theorem sweep_intact {clock : Bytes → Int} {o : Bytes → Outcomes} {session : LiveSession}
    (h : s.sessions.lookup key = some session)
    (hexp : session.isExpired (clock key) env.ttlSeconds = true) :
    Intact (s.cleanupExpired env clock o) session.data ↔
      (Ending.sweep clock o).Spares env s session.data := by
  have hk := s.keyed key session h
  have hmem : key ∈ s.expiredKeys env clock := by
    refine List.mem_filter.mpr ⟨AList.mem_keys.mpr ?_, by simp [h, hexp]⟩
    exact AList.lookup_isSome.mp (by rw [h]; rfl)
  have swept (m : Message) := @sweep_own env s key m o (s.expiredKeys env clock)
    (List.Nodup.filter _ s.sessions.nodupKeys) hmem session h
  refine intact_iff (fun m => ?_) ?_
  · rw [Store.cleanupExpired, hk, (swept m).2.1, or_iff_left (swept m).2.2, Ending.Saves, hk]
  · have hnone := (swept ⟨.user, .text [], none⟩).1
    refine iff_of_true (fun t ht => ?_) fun h => by cases h
    rw [hk, Store.cleanupExpired, hnone] at ht
    cases ht

/-! Loading. -/

theorem loads_eq_some {name : Bytes} {session : LiveSession} (h : s.loads env name = some session) :
    ∃ file, s.files.lookup name = some file ∧ loadedSession env file = session :=
  Option.map_eq_some_iff.mp h

theorem loadSessionFile_eq {name : Bytes} {now : Int} {o : Outcomes} {session : LiveSession}
    (h : s.loads env name = some session) : s.loadSessionFile env name now o =
      if session.isExpired now env.ttlSeconds then
        (s.migrated env name).archiveExpired env session name o
      else (s.migrated env name).insertLoaded session := by
  obtain ⟨file, hf, rfl⟩ := loads_eq_some h
  rw [Store.loadSessionFile, Store.migrated, h, hf]
  rfl

/-- Removing the file of an old key touches the files only. -/
theorem migrated_fields (env : StoreEnv) (s : Store) (name : Bytes) :
    (s.migrated env name).sessions = s.sessions ∧ (s.migrated env name).memory = s.memory ∧
      (s.migrated env name).wal = s.wal := by
  unfold Store.migrated
  split <;> exact ⟨rfl, rfl, rfl⟩

theorem removeFile_migrated {name : Bytes} :
    ((s.migrated env name).removeFile name).Filed key m ↔ (s.removeFile name).Filed key m := by
  unfold Store.migrated
  split
  · unfold Store.Filed Store.removeFile
    by_cases hn : sessionFilename key = name
    · simp [← hn]
    · simp [AList.lookup_erase_ne hn]
  · rfl

theorem expire_intact {name : Bytes} {now : Int} {o : Outcomes} {session : LiveSession}
    (h : s.loads env name = some session) (hexp : session.isExpired now env.ttlSeconds = true) :
    Intact (s.loadSessionFile env name now o) session.data ↔
      (Ending.expire name now o).Spares env s session.data := by
  obtain ⟨hs, hm, hw⟩ := migrated_fields env s name
  rw [loadSessionFile_eq h, if_pos hexp]
  refine intact_iff (fun m => ?_) ?_
  · refine (or_congr (archived_trunk) removeFile_migrated).trans ?_
    simp [hm, endedMeta, Ending.Saves, Outcomes.WroteTrunk, or_assoc]
  · simp only [Ending.survives, true_imp_iff]
    exact covers_congr hw (by rw [Store.archiveExpired, Store.removeFile, Store.setMemory, hs])

theorem loadOver_intact {name : Bytes} {now : Int} {o : Outcomes} {session held : LiveSession}
    (h : s.loads env name = some session) (hexp : session.isExpired now env.ttlSeconds = false)
    (hheld : s.sessions.lookup session.data.key = some held) :
    Intact ((Ending.loadOver name now o).run env s) session.data ↔
      (Ending.loadOver name now o).Spares env s session.data := by
  obtain ⟨hs, hm, hw⟩ := migrated_fields env s name
  have hk : held.data.key = session.data.key := s.keyed _ held hheld
  have hload : s.loadSessionFile env name now o =
      (s.migrated env name).insertSession (mergeLoaded held session.data) := by
    rw [loadSessionFile_eq h, if_neg (by simp [hexp]), Store.insertLoaded, hs, hheld]
  have hlookup : ((s.migrated env name).insertSession
      (mergeLoaded held session.data)).sessions.lookup session.data.key =
        some (mergeLoaded held session.data) := by
    rw [← hk]
    exact AList.lookup_insert _
  rw [Ending.run, h]
  simp only [hload]
  refine intact_iff (fun m => ?_) ?_
  · rw [persist_memory, persist_filed hlookup rfl]
    simp only [Ending.Saves, hheld, Option.mem_some_iff, exists_eq_left', Store.insertSession, hm]
    refine or_congr_right ?_
    cases o.persisted
    · rfl
    · simp only [if_true, mergeLoaded, SessionData.lanes, List.mem_append]
      tauto
  · rw [covers_congr persist_wal persist_lookup]
    simp only [Ending.survives, true_imp_iff, Store.Covers, hlookup, hheld, Option.mem_some_iff,
      forall_eq']
    simp only [mergeLoaded, Store.insertSession, hw]

/-! Shutdown. -/

theorem setMemory_persist {mem : Memory} {ok : Bool} :
    (s.setMemory mem).persist key ok = (s.persist key ok).setMemory mem := by
  have hs : (s.setMemory mem).sessions = s.sessions := rfl
  unfold Store.persist
  rw [hs]
  cases s.sessions.lookup key with
  | none => rfl
  | some session =>
    dsimp only
    split
    · cases ok <;> rfl
    · rfl

theorem setMemory_persistAll {mem : Memory} {o : Bytes → Outcomes} :
    (s.setMemory mem).persistAll o = (s.persistAll o).setMemory mem := by
  have fold (keys : List Bytes) (s : Store) :
      keys.foldl (fun s key => s.persist key (o key).persisted) (s.setMemory mem) =
        (keys.foldl (fun s key => s.persist key (o key).persisted) s).setMemory mem := by
    induction keys generalizing s with
    | nil => rfl
    | cons key keys ih => rw [List.foldl_cons, setMemory_persist, ih, List.foldl_cons]
  exact fold s.sessions.keys s

/-- Writing every session leaves the WAL and the sessions, but for their dirty marks. -/
theorem persistAll_keeps {o : Bytes → Outcomes} : (s.persistAll o).wal = s.wal ∧
    ((s.persistAll o).sessions.lookup key).map LiveSession.data =
      (s.sessions.lookup key).map LiveSession.data := by
  have fold (keys : List Bytes) (s : Store) :
      (keys.foldl (fun s key => s.persist key (o key).persisted) s).wal = s.wal ∧
        ((keys.foldl (fun s key => s.persist key (o key).persisted) s).sessions.lookup key).map
          LiveSession.data = (s.sessions.lookup key).map LiveSession.data := by
    induction keys generalizing s with
    | nil => exact ⟨rfl, rfl⟩
    | cons other keys ih =>
      obtain ⟨hw, hl⟩ := ih (s.persist other (o other).persisted)
      exact ⟨hw.trans persist_wal, hl.trans persist_lookup⟩
  exact fold s.sessions.keys s

theorem archived_onShutdown {o : Outcomes} {other : Bytes} {data : SessionData} {mem : Memory} :
    (archiveOnShutdown env o other data mem).Archived key m ↔ mem.Archived key m ∨
      other = key ∧ (o.WroteTrunk data m ∨ o.WroteQuarantine data m) := by
  unfold archiveOnShutdown
  split
  · next h => simp [Outcomes.WroteTrunk, Outcomes.WroteQuarantine, h.1, h.2]
  · rw [archived_archiveQuarantine, archived_endSession]
    simp only [endedMeta, Option.some.injEq, Outcomes.WroteTrunk, Outcomes.WroteQuarantine, and_or_left,
      or_assoc]

theorem archived_shutdown {o : Bytes → Outcomes}
    {entries : List (Sigma fun _ : Bytes => LiveSession)} {mem : Memory} :
    (entries.foldl (fun mem entry => archiveOnShutdown env (o entry.1) entry.1 entry.2.data mem)
        mem).Archived key m ↔
      mem.Archived key m ∨ ∃ session, ⟨key, session⟩ ∈ entries ∧
        ((o key).WroteTrunk session.data m ∨ (o key).WroteQuarantine session.data m) := by
  induction entries generalizing mem with
  | nil => simp
  | cons entry entries ih =>
    rw [List.foldl_cons, ih, archived_onShutdown, or_assoc]
    refine or_congr_right ?_
    obtain ⟨other, held⟩ := entry
    constructor
    · rintro (⟨rfl, hw⟩ | ⟨session, hm, hw⟩)
      · exact ⟨held, List.mem_cons_self, hw⟩
      · exact ⟨session, List.mem_cons_of_mem _ hm, hw⟩
    · rintro ⟨session, hm, hw⟩
      rcases List.mem_cons.mp hm with he | hm
      · cases he
        exact .inl ⟨rfl, hw⟩
      · exact .inr ⟨session, hm, hw⟩

theorem shutdown_intact {o : Bytes → Outcomes} {session : LiveSession}
    (h : s.sessions.lookup key = some session) :
    Intact (s.archiveAll env o) session.data ↔ (Ending.shutdown o).Spares env s session.data := by
  have hk := s.keyed key session h
  have hentry (other : LiveSession) : (⟨key, other⟩ : Sigma fun _ : Bytes => LiveSession) ∈
      s.sessions.entries ↔ other = session := by
    rw [← AList.mem_lookup_iff, h, Option.mem_some_iff, eq_comm]
  obtain ⟨hw, hl⟩ := @persistAll_keeps s key o
  refine intact_iff (fun m => ?_) ?_
  · rw [Store.archiveAll, setMemory_persistAll]
    simp only [setMemory_filed]
    refine (or_congr_left archived_shutdown).trans ?_
    simp only [hk, hentry, exists_eq_left, Ending.Saves, or_assoc]
  · rw [Store.archiveAll, setMemory_persistAll]
    simp only [Ending.survives, true_imp_iff, hk]
    exact covers_congr hw hl

theorem settled_lanes {data : SessionData} (h : m ∈ data.settled) :
    m ∈ data.messages ∨ m ∈ data.quarantine := by
  have before {mark : Option Nat} {lane : List Message} (h : m ∈ beforeMark mark lane) : m ∈ lane := by
    cases mark with
    | none => exact h
    | some n => exact List.mem_of_mem_take h
  exact (List.mem_append.mp h).imp before before

/-- A reset or a shutdown whose archive writes succeed keeps both lanes. -/
theorem spares_of_written {e : Ending} {data : SessionData} {o : Outcomes}
    (he : (∃ key now, e = .reset key now o) ∨ ∃ os, e = .shutdown os ∧ os data.key = o)
    (ht : o.ended.archive ≠ .failed) (hq : o.quarantine = true) (hc : s.Covers data.key) :
    e.Spares env s data := by
  refine ⟨fun m hm => .inr ?_, fun _ => hc⟩
  have written : o.WroteTrunk data m ∨ o.WroteQuarantine data m :=
    (settled_lanes hm).imp (⟨ht, ·⟩) (⟨hq, ·⟩)
  rcases he with ⟨key, now, rfl⟩ | ⟨os, rfl, rfl⟩
  · exact written.imp_right .inl
  · exact written.imp_right .inl

/-! A guest's session with one message in each lane. -/

def sampleStoreEnv : StoreEnv where
  strip := id
  handoff := fun _ => ascii "handoff"
  pulseName := ascii "echo"
  ttlSeconds := 60
  config := ⟨⟨none, none, none⟩, [], ⟨none, none⟩⟩

def sampleText (text : String) : Message := ⟨.user, .text (ascii text), none⟩

def sampleData : SessionData where
  key := ascii "guest:a"
  channel := ascii "chat"
  sender := ascii "a"
  messages := [sampleText "hi"]
  createdAt := 0
  lastActive := 0
  messageCount := 1
  walSeq := 2
  messagesSinceCheckpoint := 0
  isolationEphemeralFrom := none
  isolationQuarantineFrom := none
  quarantine := [sampleText "refused"]

def sampleStore : Store := Store.empty.insertSession ⟨sampleData, true⟩

def sampleOutcomes : Outcomes := ⟨⟨.written, true⟩, true, true⟩

private theorem sampleStore_lookup : sampleStore.sessions.lookup (ascii "guest:a") = some ⟨sampleData, true⟩ :=
  AList.lookup_insert _

private theorem sampleStore_covers : sampleStore.Covers sampleData.key := by
  intro session _ e he
  exact nomatch he

end PulseNull.Session
