import PulseNull.Server.Admission
import PulseNull.Session.Filenames

/-! Session keys and their files. The WAL directory, run as files, against the log each session
wrote itself. -/
namespace PulseNull.Session
open Text (ascii)

/-- One operation on a session's WAL files. -/
inductive WalOp where
  | append (key : SessionKey) (entry : WalEntry)
  | checkpoint (key : SessionKey) (seq : Nat)
  | remove (key : SessionKey)
  | removeCheckpoint (key : SessionKey)

def WalOp.key : WalOp → SessionKey
  | .append key _ | .checkpoint key _ | .remove key | .removeCheckpoint key => key

namespace WalDir

/-- A failed open leaves the directory as it is. -/
def step (d : WalDir) : WalOp → WalDir
  | .append key entry => (d.append key.text entry).getD d
  | .checkpoint key seq => (d.writeCheckpoint key.text seq).getD d
  | .remove key => d.remove key.text
  | .removeCheckpoint key => d.removeCheckpoint key.text

def run (ops : List WalOp) : WalDir := ops.foldl step empty

end WalDir

/-- What the session of a key has logged, by its own operations only. -/
def logStep (key : SessionKey) (log : List WalEntry) : WalOp → List WalEntry
  | .append k entry => if k = key then log ++ [entry] else log
  | .remove k => if k = key then [] else log
  | .checkpoint _ _ | .removeCheckpoint _ => log

def history (ops : List WalOp) (key : SessionKey) : List WalEntry := ops.foldl (logStep key) []

/-! The directory holds exactly the logs. -/

structure Holds (keys : List SessionKey) (d : WalDir) (log : SessionKey → List WalEntry) : Prop where
  read : ∀ key ∈ keys, d.read key.text = log key
  files : ∀ name, name ∈ d.wals ↔ ∃ key ∈ keys, walFilename key.text = name ∧ log key ≠ []
  marks : ∀ name ∈ d.checkpoints, ∃ key, name = checkpointFilename key

private theorem text_injective {a b : SessionKey} (h : a.text = b.text) : a = b := by
  cases a
  cases b
  cases h
  rfl

private theorem file_inj {keys : List SessionKey} (hk : ∀ key ∈ keys, FileKey key.text)
    {a b : SessionKey} (ha : a ∈ keys) (hb : b ∈ keys)
    (h : walFilename a.text = walFilename b.text) : a = b :=
  text_injective (walFilename_injective (hk a ha).unambiguous (hk b hb).unambiguous h)

namespace WalDir

theorem read_insert (d : WalDir) (key other : Bytes) (log : List WalEntry) :
    ({ d with wals := d.wals.insert (walFilename key) log } : WalDir).read other =
      if walFilename other = walFilename key then log else d.read other := by
  unfold read
  split
  · next h =>
    rw [h, AList.lookup_insert]
    rfl
  · next h => rw [AList.lookup_insert_ne h]

theorem read_remove (d : WalDir) (key other : Bytes) :
    (d.remove key).read other = if walFilename other = walFilename key then [] else d.read other := by
  unfold read remove
  split
  · next h =>
    rw [h, AList.lookup_erase]
    rfl
  · next h => rw [AList.lookup_erase_ne h]

@[simp] theorem readCheckpoint_remove (d : WalDir) (key other : Bytes) :
    (d.remove key).readCheckpoint other = d.readCheckpoint other := rfl

@[simp] theorem read_removeCheckpoint (d : WalDir) (key other : Bytes) :
    (d.removeCheckpoint key).read other = d.read other := rfl

theorem readCheckpoint_removeCheckpoint (d : WalDir) (key other : Bytes) :
    (d.removeCheckpoint key).readCheckpoint other =
      if checkpointFilename other = checkpointFilename key then 0 else d.readCheckpoint other := by
  unfold readCheckpoint removeCheckpoint
  split
  · next h =>
    rw [h, AList.lookup_erase]
    rfl
  · next h => rw [AList.lookup_erase_ne h]

end WalDir

private theorem stripSuffix_checkpoint (key : Bytes) :
    stripSuffix walSuffix (checkpointFilename key) = none := by
  have ends (text : Bytes) {suffix : Bytes} (c : UInt8) (h : suffix.getLast? = some c) :
      (text ++ suffix).getLast? = some c := by rw [List.getLast?_append, h]; rfl
  rw [stripSuffix, if_neg]
  rw [List.isSuffixOf_iff_suffix]
  rintro ⟨rest, h⟩
  have hl := ends rest 108 (show walSuffix.getLast? = some 108 by decide)
  rw [h, checkpointFilename, ends (encodeKey key) 116 (by decide)] at hl
  exact absurd hl (by decide)

section
variable {keys : List SessionKey} (hk : ∀ key ∈ keys, FileKey key.text)
include hk

private theorem holds_append {d : WalDir} {log : SessionKey → List WalEntry} (h : Holds keys d log)
    {key : SessionKey} (hm : key ∈ keys) (entry : WalEntry) :
    Holds keys (d.step (.append key entry)) (fun k => logStep k (log k) (.append key entry)) := by
  have hstep : d.step (.append key entry) =
      { d with wals := d.wals.insert (walFilename key.text) (d.read key.text ++ [entry]) } := by
    simp [WalDir.step, WalDir.append, (hk key hm).named]
  rw [hstep]
  refine ⟨fun k hkm => ?_, fun name => ?_, h.marks⟩
  · rw [WalDir.read_insert, logStep]
    by_cases he : key = k
    · subst he
      simp [h.read key hm]
    · rw [if_neg he, if_neg (fun hf => he (file_inj hk hkm hm hf).symm), h.read k hkm]
  · rw [AList.mem_insert, h.files]
    constructor
    · rintro (rfl | ⟨k, hkm, rfl, hne⟩)
      · exact ⟨key, hm, rfl, by simp [logStep]⟩
      · refine ⟨k, hkm, rfl, ?_⟩
        rw [logStep]
        split <;> simp [hne]
    · rintro ⟨k, hkm, rfl, hne⟩
      by_cases he : key = k
      · exact .inl (by rw [he])
      · rw [logStep, if_neg he] at hne
        exact .inr ⟨k, hkm, rfl, hne⟩

private theorem holds_remove {d : WalDir} {log : SessionKey → List WalEntry} (h : Holds keys d log)
    {key : SessionKey} (hm : key ∈ keys) :
    Holds keys (d.remove key.text) (fun k => logStep k (log k) (.remove key)) := by
  refine ⟨fun k hkm => ?_, fun name => ?_, h.marks⟩
  · rw [WalDir.read_remove, logStep]
    by_cases he : key = k
    · subst he
      simp
    · rw [if_neg he, if_neg (fun hf => he (file_inj hk hkm hm hf).symm), h.read k hkm]
  · rw [WalDir.remove, AList.mem_erase, h.files]
    constructor
    · rintro ⟨hname, k, hkm, rfl, hne⟩
      refine ⟨k, hkm, rfl, ?_⟩
      rw [logStep, if_neg (fun he => hname (by rw [he]))]
      exact hne
    · rintro ⟨k, hkm, rfl, hne⟩
      rw [logStep] at hne
      split at hne
      · exact absurd rfl hne
      · next he => exact ⟨fun hf => he (file_inj hk hkm hm hf).symm, k, hkm, rfl, hne⟩

/-- Every operation of a key in the set acts on that key's log alone. -/
private theorem holds_step {d : WalDir} {log : SessionKey → List WalEntry} (h : Holds keys d log)
    {op : WalOp} (hm : op.key ∈ keys) :
    Holds keys (d.step op) (fun k => logStep k (log k) op) := by
  cases op with
  | append key entry => exact holds_append hk h hm entry
  | remove key => exact holds_remove hk h hm
  | checkpoint key seq =>
    refine ⟨fun k hkm => ?_, fun name => ?_, fun name hn => ?_⟩
    · simp only [WalDir.step, WalDir.writeCheckpoint, logStep]
      split <;> exact h.read k hkm
    · simp only [WalDir.step, WalDir.writeCheckpoint, logStep]
      split <;> exact h.files name
    · simp only [WalDir.step, WalDir.writeCheckpoint] at hn
      split at hn
      · rcases AList.mem_insert _ |>.mp hn with rfl | hn
        · exact ⟨key.text, rfl⟩
        · exact h.marks name hn
      · exact h.marks name hn
  | removeCheckpoint key =>
    refine ⟨h.read, h.files, fun name hn => h.marks name (AList.mem_erase.mp hn).2⟩

/-- The directory after a run holds what each session logged. -/
theorem holds_run {ops : List WalOp} (hops : ∀ op ∈ ops, op.key ∈ keys) :
    Holds keys (.run ops) (history ops) := by
  have run (ops : List WalOp) (hops : ∀ op ∈ ops, op.key ∈ keys) (d : WalDir)
      (log : SessionKey → List WalEntry) (h : Holds keys d log) :
      Holds keys (ops.foldl WalDir.step d) (fun k => ops.foldl (logStep k) (log k)) := by
    induction ops generalizing d log with
    | nil => exact h
    | cons op ops ih =>
      exact ih (fun o ho => hops o (List.mem_cons_of_mem _ ho)) _ _
        (holds_step hk h (hops op (List.mem_cons_self ..)))
  refine run ops hops .empty (fun _ => []) ⟨fun k _ => ?_, fun name => ?_, fun name hn => ?_⟩
  · simp [WalDir.empty, WalDir.read]
  · simp [WalDir.empty, AList.notMem_empty]
  · exact absurd hn (AList.notMem_empty name)

/-- The listed keys are the keys with a log. -/
private theorem listActive_iff {d : WalDir} {log : SessionKey → List WalEntry}
    (h : Holds keys d log) (k : Bytes) :
    k ∈ d.listActive ↔ ∃ key ∈ keys, key.text = k ∧ log key ≠ [] := by
  have back (key : SessionKey) (hm : key ∈ keys) :
      (stripSuffix walSuffix (walFilename key.text)).map decodeKey = some key.text := by
    rw [walFilename, stripSuffix_append, Option.map_some, decode_encode (hk key hm).unambiguous]
  rw [WalDir.listActive, List.mem_filterMap]
  constructor
  · rintro ⟨name, hn, hk'⟩
    rcases List.mem_append.mp hn with hn | hn
    · obtain ⟨key, hm, rfl, hne⟩ := (h.files name).mp (AList.mem_keys.mpr hn)
      rw [back key hm, Option.some.injEq] at hk'
      exact ⟨key, hm, hk', hne⟩
    · obtain ⟨key, rfl⟩ := h.marks name (AList.mem_keys.mpr hn)
      rw [stripSuffix_checkpoint] at hk'
      cases hk'
  · rintro ⟨key, hm, rfl, hne⟩
    refine ⟨walFilename key.text, List.mem_append_left _ (AList.mem_keys.mp ?_), back key hm⟩
    exact (h.files _).mpr ⟨key, hm, rfl, hne⟩

end

/-! Recovery. -/

/-- The entries of a session that recovery would still archive. -/
def pending (ops : List WalOp) (key : SessionKey) : List WalEntry :=
  (history ops key).filter fun e => (WalDir.run ops).readCheckpoint key.text < e.seq

/-- A session's files are as they were, or it was an orphan and they are gone. -/
def Kept (env : RecoveryEnv) (d dir : WalDir) (key : Bytes) : Prop :=
  (dir.read key = d.read key ∧ dir.readCheckpoint key = d.readCheckpoint key) ∨
    (dir.read key = [] ∧ env.hasSession key = false)

/-- What recovery may have done so far. Every archive, and the summary, is one orphan's log. -/
structure Recovering (keys : List SessionKey) (env : RecoveryEnv) (d : WalDir) (mem : Memory)
    (r : Recovery) : Prop where
  files : ∀ key ∈ keys, Kept env d r.dir key.text
  filed : ∃ filed, r.memory.conversations = mem.conversations ++ filed ∧ ∀ a ∈ filed,
    ∃ key ∈ keys, env.hasSession key.text = false ∧ a.metadata.sessionKey = some key.text ∧
      a.conversation = orphanMessages (d.readAfterCheckpoint key.text)
  ephemeral : r.memory.ephemeral = mem.ephemeral ∨ ∃ key ∈ keys,
    env.hasSession key.text = false ∧ r.memory.ephemeral =
      some (summarize env.strip env.pulseName (orphanMessages (d.readAfterCheckpoint key.text)))

/-- What writing one conversation can leave in the archive. -/
private theorem archiveConversation_files (mem : Memory) (outcome : WriteOutcome)
    (conversation : List Message) (metadata : ArchiveMeta) :
    (archiveConversation mem outcome conversation metadata).1.ephemeral = mem.ephemeral ∧
    ∃ filed, (archiveConversation mem outcome conversation metadata).1.conversations =
        mem.conversations ++ filed ∧ ∀ a ∈ filed, a = ⟨metadata, conversation⟩ := by
  cases conversation with
  | nil => exact ⟨rfl, [], by simp [archiveConversation]⟩
  | cons m ms =>
    cases outcome with
    | written => exact ⟨rfl, [_], rfl, by simp⟩
    | unindexed => exact ⟨rfl, [_], rfl, by simp⟩
    | failed => exact ⟨rfl, [], by simp [archiveConversation]⟩

private theorem endSession_files (strip : Bytes → Bytes) (mem : Memory) (outcome : EndOutcome)
    (conversation : List Message) (metadata : ArchiveMeta) :
    ((endSession strip mem outcome conversation metadata).1.ephemeral = mem.ephemeral ∨
      (endSession strip mem outcome conversation metadata).1.ephemeral =
        some (summarize strip metadata.pulseName conversation)) ∧
    ∃ filed, (endSession strip mem outcome conversation metadata).1.conversations =
        mem.conversations ++ filed ∧ ∀ a ∈ filed, a = ⟨metadata, conversation⟩ := by
  obtain ⟨he, hf⟩ := archiveConversation_files mem outcome.archive conversation metadata
  unfold endSession
  split
  · exact ⟨.inl rfl, [], by simp⟩
  · simp only [writeEphemeralSummary]
    split
    · exact ⟨.inl he, hf⟩
    · exact ⟨.inr rfl, hf⟩

section
variable {keys : List SessionKey} (hk : ∀ key ∈ keys, FileKey key.text)
  {env : RecoveryEnv} {d dir : WalDir} {mem : Memory} {key : SessionKey} (hm : key ∈ keys)
include hk hm

private theorem kept_discard (horphan : env.hasSession key.text = false)
    (h : ∀ k ∈ keys, Kept env d dir k.text) :
    ∀ k ∈ keys, Kept env d (dir.discard key.text) k.text := by
  intro k hkm
  simp only [Kept, WalDir.discard, WalDir.read_removeCheckpoint, WalDir.read_remove,
    WalDir.readCheckpoint_removeCheckpoint, WalDir.readCheckpoint_remove]
  by_cases he : k = key
  · subst he
    exact .inr ⟨by simp, horphan⟩
  · have hu := (hk k hkm).unambiguous
    have hu' := (hk key hm).unambiguous
    rw [if_neg (fun hf => he (text_injective (walFilename_injective hu hu' hf))),
      if_neg (fun hf => he (text_injective (checkpointFilename_injective hu hu' hf)))]
    exact h k hkm

/-- One listed key: only an orphan's own log is archived, and only its files go. -/
private theorem recovering_step {r : Recovery} (h : Recovering keys env d mem r) :
    Recovering keys env d mem (recoverOrphan env r key.text) := by
  unfold recoverOrphan
  split
  · exact h
  next hlive =>
  have horphan : env.hasSession key.text = false := by simpa using hlive
  have hgone := kept_discard hk hm horphan h.files
  split
  · exact ⟨hgone, h.filed, h.ephemeral⟩
  next first rest hentries =>
  have hlog : r.dir.readAfterCheckpoint key.text = d.readAfterCheckpoint key.text := by
    rcases h.files key hm with ⟨hr, hc⟩ | ⟨hr, -⟩
    · rw [WalDir.readAfterCheckpoint, hr, hc, WalDir.readAfterCheckpoint]
    · simp [WalDir.readAfterCheckpoint, hr] at hentries
  rw [← hentries, hlog]
  set messages := orphanMessages (d.readAfterCheckpoint key.text) with hmessages
  set metadata := orphanMeta env.pulseName key.text first with hmeta
  have own (filed : List Archive) (hf : ∀ a ∈ filed, a = ⟨metadata, messages⟩) : ∀ a ∈ filed,
      ∃ k ∈ keys, env.hasSession k.text = false ∧ a.metadata.sessionKey = some k.text ∧
        a.conversation = orphanMessages (d.readAfterCheckpoint k.text) := by
    intro a ha
    rw [hf a ha]
    exact ⟨key, hm, horphan, rfl, rfl⟩
  obtain ⟨old, hold, hown⟩ := h.filed
  obtain ⟨heph, one, hone, hown1⟩ :=
    archiveConversation_files r.memory (env.outcome key.text).archive messages metadata
  have filed1 : (archiveConversation r.memory (env.outcome key.text).archive messages
      metadata).1.conversations = mem.conversations ++ (old ++ one) := by
    rw [hone, hold, List.append_assoc]
  have own1 := fun a ha => (List.mem_append.mp ha).elim (hown a) (own one hown1 a)
  dsimp only
  split
  · next memory heq =>
    rw [heq] at heph filed1
    obtain ⟨heph2, two, htwo, hown2⟩ :=
      endSession_files env.strip memory (env.outcome key.text).finish messages metadata
    refine ⟨hgone, ⟨(old ++ one) ++ two, ?_, fun a ha => ?_⟩, ?_⟩
    · rw [htwo, filed1, List.append_assoc]
    · exact (List.mem_append.mp ha).elim (own1 a) (own two hown2 a)
    · rcases heph2 with he | he
      · rw [he, heph]
        exact h.ephemeral
      · exact .inr ⟨key, hm, horphan, he⟩
  · next memory heq =>
    rw [heq] at heph filed1
    refine ⟨h.files, ⟨old ++ one, filed1, own1⟩, ?_⟩
    rw [heph]
    exact h.ephemeral

end

section
variable {keys : List SessionKey} (hk : ∀ key ∈ keys, FileKey key.text)
include hk

/-- Recovery of a run acts on the orphans only, each on its own. -/
theorem recovering_run {ops : List WalOp} (hops : ∀ op ∈ ops, op.key ∈ keys) (env : RecoveryEnv)
    (mem : Memory) :
    Recovering keys env (.run ops) mem (recoverOrphans env (.run ops) mem) := by
  have run (listed : List Bytes) (hl : ∀ k ∈ listed, ∃ key ∈ keys, key.text = k) (r : Recovery)
      (h : Recovering keys env (.run ops) mem r) :
      Recovering keys env (.run ops) mem (listed.foldl (recoverOrphan env) r) := by
    induction listed generalizing r with
    | nil => exact h
    | cons k listed ih =>
      obtain ⟨key, hm, rfl⟩ := hl k (List.mem_cons_self ..)
      exact ih (fun k hk => hl k (List.mem_cons_of_mem _ hk)) _ (recovering_step hk hm h)
  refine run _ (fun k hlisted => ?_) _ ⟨fun key _ => .inl ⟨rfl, rfl⟩, ⟨[], by simp⟩, .inl rfl⟩
  obtain ⟨key, hm, htext, -⟩ := (listActive_iff hk (holds_run hk hops) k).mp hlisted
  exact ⟨key, hm, htext⟩

end

/-- Session keys and their files correspond one to one. -/
structure OneToOne (keys : List SessionKey) : Prop where
  names : ∀ a ∈ keys, ∀ b ∈ keys, a ≠ b →
    walFilename a.text ≠ walFilename b.text ∧ sessionFilename a.text ≠ sessionFilename b.text
  /-- The listed keys of any run are the keys with a log. -/
  listed : ∀ ops : List WalOp, (∀ op ∈ ops, op.key ∈ keys) → ∀ k,
    k ∈ (WalDir.run ops).listActive ↔ ∃ key ∈ keys, key.text = k ∧ history ops key ≠ []
  /-- Recovery never touches a live session's WAL. -/
  live : ∀ ops : List WalOp, (∀ op ∈ ops, op.key ∈ keys) → ∀ env mem, ∀ key ∈ keys,
    env.hasSession key.text = true →
    let r := recoverOrphans env (.run ops) mem
    r.dir.read key.text = history ops key ∧
      r.dir.readCheckpoint key.text = (WalDir.run ops).readCheckpoint key.text
  /-- Everything recovery writes down is the log of one session that is not live. -/
  separate : ∀ ops : List WalOp, (∀ op ∈ ops, op.key ∈ keys) → ∀ env mem,
    let r := recoverOrphans env (.run ops) mem
    (∃ filed, r.memory.conversations = mem.conversations ++ filed ∧ ∀ a ∈ filed, ∃ key ∈ keys,
      env.hasSession key.text = false ∧ a.metadata.sessionKey = some key.text ∧
        a.conversation = orphanMessages (pending ops key)) ∧
    (r.memory.ephemeral = mem.ephemeral ∨ ∃ key ∈ keys, env.hasSession key.text = false ∧
      r.memory.ephemeral =
        some (summarize env.strip env.pulseName (orphanMessages (pending ops key))))

private theorem pending_eq {keys : List SessionKey} (hk : ∀ key ∈ keys, FileKey key.text)
    {ops : List WalOp} (hops : ∀ op ∈ ops, op.key ∈ keys) {key : SessionKey} (hm : key ∈ keys) :
    (WalDir.run ops).readAfterCheckpoint key.text = pending ops key := by
  rw [WalDir.readAfterCheckpoint, (holds_run hk hops).read key hm, pending]

private theorem one_to_one {keys : List SessionKey} (hk : ∀ key ∈ keys, FileKey key.text) :
    OneToOne keys where
  names a ha b hb hab := by
    have hua := (hk a ha).unambiguous
    have hub := (hk b hb).unambiguous
    exact ⟨fun h => hab (text_injective (walFilename_injective hua hub h)),
      fun h => hab (text_injective (sessionFilename_injective hua hub h))⟩
  listed ops hops k := listActive_iff hk (holds_run hk hops) k
  live ops hops env mem key hm hlive := by
    rcases (recovering_run hk hops env mem).files key hm with ⟨hr, hc⟩ | ⟨-, hdead⟩
    · exact ⟨hr.trans ((holds_run hk hops).read key hm), hc⟩
    · rw [hlive] at hdead
      cases hdead
  separate ops hops env mem := by
    have h := recovering_run hk hops env mem
    obtain ⟨filed, hf, hown⟩ := h.filed
    refine ⟨⟨filed, hf, fun a ha => ?_⟩, ?_⟩
    · obtain ⟨key, hm, hdead, hkey, hconv⟩ := hown a ha
      exact ⟨key, hm, hdead, hkey, by rw [hconv, pending_eq hk hops hm]⟩
    · rcases h.ephemeral with he | ⟨key, hm, hdead, he⟩
      · exact .inl he
      · exact .inr ⟨key, hm, hdead, by rw [he, pending_eq hk hops hm]⟩

/-- A key whose log is listed under its own name is one a file can carry. -/
private theorem fileKey_of_listed {keys : List SessionKey} (h : OneToOne keys) {key : SessionKey}
    (hm : key ∈ keys) : FileKey key.text := by
  let entry : WalEntry := ⟨1, .user, .text [], ⟨none, none⟩, .trunk⟩
  have hl := (h.listed [.append key entry] (by simpa [WalOp.key] using hm) key.text).mpr
    ⟨key, hm, rfl, by simp [history, logStep]⟩
  have hlog : isFileName (walFilename key.text) = true := by
    by_contra hn
    rw [Bool.not_eq_true] at hn
    simp [WalDir.run, WalDir.step, WalDir.append, hn, WalDir.listActive, WalDir.filenames,
      WalDir.empty] at hl
  refine ⟨decode_encode_iff.mp ?_, hlog⟩
  have hnames : (WalDir.run [.append key entry]).filenames = [walFilename key.text] := by
    simp [WalDir.run, WalDir.step, WalDir.append, hlog, WalDir.filenames, WalDir.empty]
  rw [WalDir.listActive, hnames] at hl
  simpa [walFilename, stripSuffix_append, eq_comm] using hl

/-- Keys and files correspond one to one exactly for sets of keys that their file names carry:
no key has `--` or `-:` in it, and each names a file. -/
theorem one_to_one_iff (keys : List SessionKey) :
    OneToOne keys ↔ ∀ key ∈ keys, Unambiguous key.text ∧ isFileName (walFilename key.text) = true :=
  ⟨fun h _ hm => ⟨(fileKey_of_listed h hm).unambiguous, (fileKey_of_listed h hm).named⟩,
    fun h => one_to_one fun key hm => ⟨(h key hm).1, (h key hm).2⟩⟩

/-- Two senders a plugin may name. Their sessions share one WAL, which recovery takes for an
orphan's while the first of them is live. -/
theorem live_wal_archived :
    let dashes := SessionKey.guest (ascii "a--b")
    let colon := SessionKey.guest (ascii "a:b")
    let admitted (sender : String) :=
      (Server.admitTurn ⟨⟨none, none, none⟩, [], ⟨none, none⟩⟩ (fun _ _ _ => none)
        (.plugin (ascii "slack") (ascii "slack"))
        ⟨ascii "hi", ascii "slack", some (ascii sender)⟩).toOption.map (·.key)
    let env : RecoveryEnv := ⟨id, ascii "pulse", (· = dashes.text), fun _ => ⟨.written, .written, true⟩⟩
    let ops := [.append dashes ⟨1, .user, .text (ascii "hi"), ⟨some (ascii "slack"), none⟩, .trunk⟩]
    admitted "a--b" = some dashes ∧ admitted "a:b" = some colon ∧
    walFilename dashes.text = walFilename colon.text ∧
    history ops dashes ≠ [] ∧ (recoverOrphans env (.run ops) .empty).dir.read dashes.text = [] ∧
    ¬ OneToOne [dashes, colon] := by
  refine ⟨by decide, by decide, by decide, by decide, by decide, fun h => ?_⟩
  have hn := h.names (.guest (ascii "a--b")) (by simp) (.guest (ascii "a:b")) (by simp) (by decide)
  exact hn.1 (by decide)

end PulseNull.Session
