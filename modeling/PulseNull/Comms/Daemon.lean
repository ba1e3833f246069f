import PulseNull.Comms.Ending

/-! The daemon: what holds of its dialogues, files and watchers in every run. -/
namespace PulseNull.Comms
open Text (ascii)

/-- The dialogue the shutdown has found. -/
def Shutdown.dialogue? : Shutdown → Option Nat
  | .found id | .stopping id _ | .waiting id _ => some id
  | .idle | .closing | .returned => none

/-- All dialogues but the last have recorded their ending, and the last is the one in the slot. -/
structure Sys.Inv (s : Sys) : Prop where
  ids : ∀ (i : Nat) (d : Dialogue), s.dialogues[i]? = some d → d.id = i
  ok : ∀ (i : Nat) (d : Dialogue), s.dialogues[i]? = some d → d.Ok
  current : ∀ i, s.current = some i ↔ i + 1 = s.dialogues.length
  older : ∀ (i : Nat) (d : Dialogue), s.dialogues[i]? = some d → i + 1 ≠ s.dialogues.length → d.stage.recorded = true
  files : ∀ i, s.filesOf i = s.dialogues[i]?.elim [] Dialogue.files
  watchers : ∀ w ∈ s.watchers, ∃ d, s.dialogues[w.dialogue]? = some d ∧ w.Ok d
  closed : s.shutdown ≠ .idle → s.closed = true
  found : ∀ i, s.shutdown.dialogue? = some i → i + 1 = s.dialogues.length
  returned : s.shutdown = .returned → ∀ (i : Nat) (d : Dialogue), s.dialogues[i]? = some d → d.stage.recorded = true

theorem Sys.Inv.start : Sys.start.Inv where
  ids _ _ h := nomatch h
  ok _ _ h := nomatch h
  current i := by simp [Sys.start]
  older _ _ h := nomatch h
  files _ := rfl
  watchers _ h := nomatch h
  closed h := absurd rfl h
  found _ h := nomatch h
  returned h := nomatch h

section
variable {s s' : Sys}

/-- Requests and notices may change. -/
theorem Sys.Inv.frame (h : s.Inv) (hs : s'.closed = s.closed ∧ s'.current = s.current ∧
    s'.dialogues = s.dialogues ∧ s'.watchers = s.watchers ∧ s'.shutdown = s.shutdown ∧
    s'.archives = s.archives) : s'.Inv := by
  obtain ⟨closed, current, dialogues, starting, notices, watchers, shutdown, archives⟩ := s
  obtain ⟨closed', current', dialogues', starting', notices', watchers', shutdown', archives'⟩ := s'
  obtain ⟨rfl, rfl, rfl, rfl, rfl, rfl⟩ := hs
  exact ⟨h.ids, h.ok, h.current, h.older, h.files, h.watchers, h.closed, h.found, h.returned⟩

/-- A dialogue goes on, and leaves some files. -/
theorem Sys.Inv.set (h : s.Inv) {id : Nat} {d d' : Dialogue} (hd : s.dialogues[id]? = some d)
    (hok : d'.Ok) (hg : d.Grows d') (hid : d'.id = d.id) {files : List (Nat × List (Bytes × Bytes))}
    (hown : ∀ f ∈ files, f.1 = d.id) (hfiles : d'.files = d.files ++ files.map (·.2)) :
    { s with dialogues := s.dialogues.set id d', archives := s.archives ++ files }.Inv := by
  have hlt : id < s.dialogues.length := (List.getElem?_eq_some_iff.mp hd).1
  have hself : (s.dialogues.set id d')[id]? = some d' := List.getElem?_set_self hlt
  have hother : ∀ i, i ≠ id → (s.dialogues.set id d')[i]? = s.dialogues[i]? := fun i hi =>
    List.getElem?_set_ne (Ne.symm hi)
  -- What holds of every dialogue and is kept by the step.
  have hall : ∀ P : Nat → Dialogue → Prop, (P id d → P id d') →
      (∀ i d, s.dialogues[i]? = some d → P i d) →
      ∀ i e, (s.dialogues.set id d')[i]? = some e → P i e := by
    intro P hstep hP i e he
    rcases eq_or_ne i id with rfl | hi
    · obtain rfl : d' = e := Option.some.inj (hself.symm.trans he)
      exact hstep (hP i d hd)
    · exact hP i e ((hother i hi).symm.trans he)
  refine ⟨hall (fun i d => d.id = i) (fun h => hid.trans h) h.ids, hall _ (fun _ => hok) h.ok, ?_, ?_,
    fun i => ?_, fun w hw => ?_, h.closed, ?_, fun hs => hall _ (fun hr => (hg.recorded hr).1)
      (h.returned hs)⟩
  · simpa using h.current
  · have := hall (fun i d => i + 1 ≠ s.dialogues.length → d.stage.recorded = true)
      (fun hr hi => (hg.recorded (hr hi)).1) h.older
    simpa using this
  · change (s.archives ++ files).filterMap _ = _
    rw [List.filterMap_append]
    change s.filesOf i ++ _ = _
    rw [h.files i]
    rcases eq_or_ne i id with rfl | hi
    · have hmap : files.filterMap (fun file => if file.1 = i then some file.2 else none) =
          files.map (·.2) := by
        rw [← List.filterMap_eq_map]
        refine List.filterMap_congr fun f hf => ?_
        rw [if_pos ((hown f hf).trans (h.ids i d hd))]
        rfl
      rw [hmap, hd, hself]
      exact hfiles.symm
    · have hnil : files.filterMap (fun file => if file.1 = i then some file.2 else none) = [] := by
        refine List.filterMap_eq_nil_iff.mpr fun f hf => ?_
        rw [if_neg]
        rintro rfl
        exact hi ((hown f hf).trans (h.ids id d hd))
      rw [hnil, List.append_nil, hother i hi]
  · obtain ⟨e, he, hw⟩ := h.watchers w hw
    rcases eq_or_ne w.dialogue id with hi | hi
    · rw [hi] at he
      obtain rfl : d = e := Option.some.inj (hd.symm.trans he)
      exact ⟨d', hi ▸ hself, hw.grows hg⟩
    · exact ⟨e, (hother _ hi).trans he, hw⟩
  · simpa using h.found

/-- A dialogue goes on. -/
theorem Sys.Inv.keeps (h : s.Inv) {id : Nat} {d d' : Dialogue} (hd : s.dialogues[id]? = some d)
    (hk : d.Keeps d') : { s with dialogues := s.dialogues.set id d' }.Inv := by
  have hnone : ∀ f ∈ ([] : List (Nat × List (Bytes × Bytes))), f.1 = d.id := fun _ hf => nomatch hf
  have := h.set hd hk.ok hk.grows hk.id hnone (by rw [hk.files, List.map_nil, List.append_nil])
  exact this.frame ⟨rfl, rfl, rfl, rfl, rfl, (List.append_nil _).symm⟩

theorem Sys.Inv.modify (h : s.Inv) (id : Nat) {f : Dialogue → Dialogue}
    (hf : ∀ d : Dialogue, d.Ok → d.Keeps (f d)) : (s.modify id f).Inv := by
  unfold Sys.modify
  split
  · next d hd => exact h.keeps hd (hf d (h.ok id d hd))
  · exact h

theorem Sys.Inv.run (h : s.Inv) {id : Nat} {env : Env} (hm : s.Meets (.run id env)) :
    (s.run id env).Inv := by
  unfold Sys.run
  split
  · next d hd =>
    have hok := h.ok id d hd
    by_cases hs : d.stage = .archiving
    · obtain ⟨hok', hg, hnil, hfiles⟩ := hok.archiving hs (hm d hd hs)
      refine h.set hd hok' hg ?_ ?_ (by rw [hnil, List.nil_append, hfiles])
      · unfold Dialogue.run
        rw [hs]
      · intro f hf
        unfold Dialogue.written at hf
        split at hf
        · rw [List.mem_singleton.mp hf]
        · exact nomatch hf
    · have hnone : d.written env = [] := if_neg fun hc => hs hc.1
      rw [hnone, List.append_nil]
      exact h.keeps hd (hok.run env hs)
  · exact h

theorem Sys.Inv.setPaused (h : s.Inv) (id : Nat) (paused : Bool) : (s.setPaused id paused).Inv := by
  unfold Sys.setPaused
  split
  · next d hd =>
    exact (h.keeps hd ((h.ok id d hd).setPaused paused)).frame ⟨rfl, rfl, rfl, rfl, rfl, rfl⟩
  · exact h

theorem Sys.Inv.notice (h : s.Inv) (k : Nat) : (s.notice k).Inv := by
  unfold Sys.notice
  split
  · next id _ =>
    have := h.modify id (f := fun d => d.send (.status d.status)) fun d hd => hd.send rfl rfl
    exact this.frame ⟨rfl, rfl, rfl, rfl, rfl, rfl⟩
  · exact h

/-- The dialogue in the slot is over, and so are all others. -/
theorem Sys.Inv.allRecorded (h : s.Inv)
    (hover : (s.running.any fun d => !d.phase.isOver) = false) (hm : ∀ d ∈ s.running, d.Settled)
    (i : Nat) (d : Dialogue) (hd : s.dialogues[i]? = some d) : d.stage.recorded = true := by
  by_cases hi : i + 1 = s.dialogues.length
  · have hrun : s.running = some d := by
      unfold Sys.running
      rw [(h.current i).mpr hi]
      exact hd
    rw [hrun] at hover
    exact hm d hrun (by simpa using hover)
  · exact h.older i d hd hi

/-- A dialogue is added when the others have recorded their ending, before the daemon closes. -/
theorem Sys.Inv.add (h : s.Inv) (localName : Bytes) (req : StartRequest) (slots : Nat)
    (hclosed : s.closed = false)
    (hall : ∀ (i : Nat) (d : Dialogue), s.dialogues[i]? = some d → d.stage.recorded = true) :
    { s with
      current := some s.dialogues.length
      dialogues := s.dialogues ++ [Dialogue.new s.dialogues.length localName req slots] }.Inv := by
  have hidle : s.shutdown = .idle := by
    by_contra hne
    exact nomatch hclosed.symm.trans (h.closed hne)
  have hget : ∀ i d, (s.dialogues ++ [Dialogue.new s.dialogues.length localName req slots])[i]? =
      some d → s.dialogues[i]? = some d ∨
        i = s.dialogues.length ∧ d = .new s.dialogues.length localName req slots := by
    intro i d hd
    rcases Nat.lt_or_ge i s.dialogues.length with hi | hi
    · exact .inl ((List.getElem?_append_left hi).symm.trans hd)
    · rw [List.getElem?_append_right hi, List.getElem?_singleton] at hd
      split at hd
      · next hz => exact .inr ⟨by omega, (Option.some.inj hd).symm⟩
      · exact nomatch hd
  refine ⟨fun i d hd => ?_, fun i d hd => ?_, fun i => ?_, fun i d hd hi => ?_, fun i => ?_,
    fun w hw => ?_, h.closed, fun i hi => ?_, fun hs => nomatch hidle.symm.trans hs⟩
  · rcases hget i d hd with hd | ⟨rfl, rfl⟩
    · exact h.ids i d hd
    · rfl
  · rcases hget i d hd with hd | ⟨rfl, rfl⟩
    · exact h.ok i d hd
    · exact .new _ _ _ _
  · simp only [Option.some.injEq, List.length_append, List.length_singleton]
    omega
  · rcases hget i d hd with hd | ⟨rfl, rfl⟩
    · exact hall i d hd
    · exact absurd (by simp) hi
  · change s.filesOf i = _
    rw [h.files i]
    rcases Nat.lt_trichotomy i s.dialogues.length with hi | rfl | hi
    · rw [List.getElem?_append_left hi]
    · rw [List.getElem?_eq_none le_rfl, List.getElem?_concat_length]
      rfl
    · rw [List.getElem?_eq_none hi.le, List.getElem?_eq_none (by simp; omega)]
  · obtain ⟨d, hd, hw⟩ := h.watchers w hw
    exact ⟨d, (List.getElem?_append_left (List.getElem?_eq_some_iff.mp hd).1).trans hd, hw⟩
  · change s.shutdown.dialogue? = some i at hi
    rw [hidle] at hi
    exact nomatch hi

theorem Sys.Inv.admits (h : s.Inv) (localName : Bytes) (slots : Nat) {k : Nat}
    (hm : s.Meets (.admits k)) : (s.admits localName slots k).Inv := by
  unfold Sys.admits
  split
  · exact h
  · next req _ =>
    dsimp only
    split
    · exact h.frame ⟨rfl, rfl, rfl, rfl, rfl, rfl⟩
    · next hover =>
      have hover : (s.running.any fun d => !d.phase.isOver) = false := Bool.eq_false_iff.mpr hover
      obtain ⟨hclosed, hsettled⟩ := hm hover
      exact (h.add localName req slots hclosed (h.allRecorded hover hsettled)).frame
        ⟨rfl, rfl, rfl, rfl, rfl, rfl⟩

theorem Sys.Inv.watch (h : s.Inv) {id : Nat} (hm : s.Meets (.watch id)) : (s.watch id).Inv := by
  unfold Sys.watch
  split
  · next d hd =>
    refine ⟨h.ids, h.ok, h.current, h.older, h.files, fun w hw => ?_, h.closed, h.found, h.returned⟩
    rcases List.mem_append.mp hw with hw | hw
    · exact h.watchers w hw
    · obtain rfl := List.mem_singleton.mp hw
      refine ⟨d, hd, Nat.zero_le _, rfl, (fun _ _ he => nomatch he), ?_⟩
      exact .subscribe (h.ok id d hd) (hm d hd) (Nat.zero_le _) _
  · exact h

theorem Sys.Inv.watcher (h : s.Inv) {k : Nat} (hm : s.Meets (.watcher k)) : (s.watcher k).Inv := by
  unfold Sys.watcher
  split
  · exact h
  · next w hw =>
    split
    · next d hd =>
      have hdialogue : (w.run d).dialogue = w.dialogue := by
        unfold Watcher.run
        split
        · rfl
        · unfold Watcher.receive
          split
          · rfl
          · rfl
          · split <;> rfl
          · rfl
        · rfl
      refine ⟨h.ids, h.ok, h.current, h.older, h.files, fun v hv => ?_, h.closed, h.found, h.returned⟩
      rcases List.mem_or_eq_of_mem_set hv with hv | rfl
      · exact h.watchers v hv
      · obtain ⟨e, he, hwok⟩ := h.watchers w (List.mem_of_getElem? hw)
        obtain rfl : d = e := Option.some.inj (hd.symm.trans he)
        exact ⟨d, hdialogue ▸ hd, hwok.run (h.ok _ d hd) (hm w hw d hd)⟩
    · exact h

/-- The shutdown goes on with the dialogue in the slot. -/
theorem Sys.Inv.wait (h : s.Inv) {id : Nat} (hid : id + 1 = s.dialogues.length)
    (hc : s.closed = true) {stage : Shutdown} (hs : stage.dialogue? = some id) :
    { s with shutdown := stage }.Inv := by
  refine ⟨h.ids, h.ok, h.current, h.older, h.files, h.watchers, fun _ => hc, fun i hi => ?_,
    fun hr => ?_⟩
  · obtain rfl : id = i := Option.some.inj (hs.symm.trans hi)
    exact hid
  · obtain rfl : stage = .returned := hr
    exact nomatch hs

/-- The shutdown returns once the dialogue in the slot has recorded its ending. -/
theorem Sys.Inv.back (h : s.Inv) (hc : s.closed = true)
    (hr : ∀ (i : Nat) (d : Dialogue), s.dialogues[i]? = some d → i + 1 = s.dialogues.length → d.stage.recorded = true) :
    { s with shutdown := .returned }.Inv := by
  refine ⟨h.ids, h.ok, h.current, h.older, h.files, h.watchers, fun _ => hc, (fun _ hi => nomatch hi),
    fun _ i d hd => ?_⟩
  by_cases hi : i + 1 = s.dialogues.length
  · exact hr i d hd hi
  · exact h.older i d hd hi

theorem Sys.Inv.shutdownStep (h : s.Inv) (hm : s.MeetsShutdown) : s.shutdownStep.Inv := by
  have hclosed : s.shutdown ≠ .idle → s.closed = true := h.closed
  have hfound := h.found
  unfold Sys.MeetsShutdown at hm
  unfold Sys.shutdownStep
  cases hs : s.shutdown with
  | idle =>
    exact ⟨h.ids, h.ok, h.current, h.older, h.files, h.watchers, fun _ => rfl,
      (fun _ hi => nomatch hi), (nomatch ·)⟩
  | closing =>
    dsimp only
    have hc := hclosed (by simp [hs])
    cases hcur : s.current with
    | none =>
      have := h.back hc fun i d _ hi => nomatch hcur.symm.trans ((h.current i).mpr hi)
      exact this.frame ⟨rfl, hcur.symm, rfl, rfl, rfl, rfl⟩
    | some id =>
      have hfound : (Shutdown.found id).dialogue? = some id := rfl
      exact (h.wait ((h.current id).mp hcur) hc hfound).frame ⟨rfl, hcur.symm, rfl, rfl, rfl, rfl⟩
  | found id =>
    rw [hs] at hm hfound
    have hid := hfound id rfl
    have hc := hclosed (by simp [hs])
    dsimp only
    split
    · next d hd =>
      split
      · next ho =>
        refine h.back hc fun i e he hi => ?_
        obtain rfl : i = id := by omega
        obtain rfl : d = e := Option.some.inj (hd.symm.trans he)
        exact hm d hd ho
      · exact h.wait hid hc rfl
    · exact h
  | stopping id pos =>
    rw [hs] at hfound
    have hid := hfound id rfl
    have hstop := h.modify id fun d hd => hd.stop
    have hlen : (s.modify id Dialogue.stop).dialogues.length = s.dialogues.length := by
      unfold Sys.modify
      split
      · exact List.length_set
      · rfl
    refine hstop.wait (by rw [hlen]; exact hid) ?_ rfl
    refine hstop.closed ?_
    unfold Sys.modify
    split <;> simp [hs]
  | waiting id pos =>
    rw [hs] at hfound
    have hid := hfound id rfl
    have hc := hclosed (by simp [hs])
    dsimp only
    split
    · next d hd =>
      unfold waitFor
      cases hr : d.tx.recv pos with
      | pending => exact h.wait hid hc rfl
      | lagged missed => exact h.wait hid hc rfl
      | value e =>
        dsimp only
        split
        · next he =>
          obtain ⟨archived, ha⟩ := (isEnding_iff e).mp he
          refine h.back hc fun i d' hd' hi => ?_
          obtain rfl : i = id := by omega
          obtain rfl : d = d' := Option.some.inj (hd.symm.trans hd')
          rw [((h.ok i d hd).endingAt (Broadcast.recv_value hr) ha).1]
          rfl
        · exact h.wait hid hc rfl
    · exact h
  | returned => exact h

theorem Sys.Inv.timeout (h : s.Inv) (hm : s.MeetsTimeout) : s.timeout.Inv := by
  have hfound := h.found
  unfold Sys.MeetsTimeout at hm
  unfold Sys.timeout
  cases hs : s.shutdown with
  | waiting id pos =>
    rw [hs] at hm hfound
    have hid := hfound id rfl
    refine h.back (h.closed (by simp [hs])) fun i d hd hi => ?_
    obtain rfl : i = id := by omega
    exact hm d hd
  | _ => exact h

theorem Sys.Inv.step (h : s.Inv) (localName : Bytes) (slots : Nat) (act : Act) (hm : s.Meets act) :
    (s.step localName slots act).Inv := by
  cases act with
  | request req isolated =>
    unfold Sys.step
    dsimp only
    split
    · exact h
    · exact h.frame ⟨rfl, rfl, rfl, rfl, rfl, rfl⟩
  | admits k => exact h.admits localName slots hm
  | run id env => exact h.run hm
  | land id => exact h.modify id fun d hd => hd.land
  | setPaused id paused => exact h.setPaused id paused
  | notice k => exact h.notice k
  | stop id => exact h.modify id fun d hd => hd.stop
  | watch id => exact h.watch hm
  | watcher k => exact h.watcher hm
  | shutdown => exact h.shutdownStep hm
  | timeout => exact h.timeout hm

theorem Stage.filed_of_recorded {stage : Stage} (h : stage.recorded = true) : stage.filed = true := by
  cases stage with
  | noting | ending | gone => rfl
  | _ => exact nomatch h

theorem Stage.not_calling_of_recorded {stage : Stage} (h : stage.recorded = true) :
    stage.isCalling = false := by
  cases stage with
  | noting | ending | gone => rfl
  | _ => exact nomatch h

theorem Sys.Inv.single (h : s.Inv) : s.dialogues.countP (·.stage.isCalling) ≤ 1 := by
  rcases List.eq_nil_or_concat s.dialogues with hnil | ⟨older, last, hcat⟩
  · simp [hnil]
  · have hnone : older.countP (·.stage.isCalling) = 0 := by
      refine List.countP_eq_zero.mpr fun d hd => ?_
      obtain ⟨i, hi⟩ := List.mem_iff_getElem?.mp hd
      have hlt := (List.getElem?_eq_some_iff.mp hi).1
      have hget : s.dialogues[i]? = some d := by
        rw [hcat, List.concat_eq_append, List.getElem?_append_left hlt]
        exact hi
      have hne : i + 1 ≠ s.dialogues.length := by
        rw [hcat, List.length_concat]
        omega
      rw [Stage.not_calling_of_recorded (h.older i d hget hne)]
      decide
    rw [hcat, List.concat_eq_append, List.countP_append, hnone, Nat.zero_add]
    exact List.countP_le_length

theorem Sys.Inv.sound (h : s.Inv) : s.Sound where
  single := h.single
  files d hd := by
    obtain ⟨i, hi⟩ := List.mem_iff_getElem?.mp hd
    rw [h.ids i d hi, h.files i, hi]
    rfl
  flags d hd hr := by
    obtain ⟨i, hi⟩ := List.mem_iff_getElem?.mp hd
    exact (h.ok i d hi).recorded hr
  shutdown hs d hd := by
    obtain ⟨i, hi⟩ := List.mem_iff_getElem?.mp hd
    exact Stage.filed_of_recorded (h.returned hs i d hi)
  watchers w hw := by
    obtain ⟨d, hd, hok⟩ := h.watchers w hw
    exact ⟨d, hd, hok.sound⟩

end

/-- In every run whose steps meet the condition the dialogues are sound. -/
theorem dialogues_sound {localName : Bytes} {slots : Nat} {s : Sys}
    (h : (daemon localName slots).Runs Sys.Meets s) : s.Sound :=
  (h.invariant (I := Sys.Inv) .start fun _ act hs hm => hs.step localName slots act hm).sound

def sampleRequest : StartRequest := ⟨ascii "peer", none, 1⟩

def sampleEnv : Env := ⟨false, .ok (ascii "text"), true⟩

/-- A dialogue starts and has its first turn. -/
def sampleTurn (maxTurns : Nat) : List Act :=
  [.request { sampleRequest with maxTurns := maxTurns } false, .admits 0] ++
    List.replicate 6 (.run 0 sampleEnv)

/-- A dialogue of one turn; a watcher lags, subscribes again and has it all; the shutdown returns. -/
def sampleRun : List Act :=
  [.request sampleRequest false, .admits 0, .watch 0, .watcher 0] ++
    List.replicate 13 (.run 0 sampleEnv) ++ List.replicate 2 (.watcher 0) ++ List.replicate 3 .shutdown

theorem dialogues_sound_sample : ∃ s, (daemon (ascii "local") 2).Runs Sys.Meets s ∧ s.Sound ∧
    s.archives = [(0, [(ascii "local", ascii "text")])] ∧ s.shutdown = .returned ∧
    s.watchers.map (·.stage) = [.ended] := by
  have hrun : ((daemon (ascii "local") 2).follow (fun s act => decide (s.Meets act)) .start
      sampleRun).map (fun s => decide (s.archives = [(0, [(ascii "local", ascii "text")])] ∧
        s.shutdown = .returned ∧ s.watchers.map (·.stage) = [.ended])) = some true := by
    decide +kernel
  obtain ⟨s, hs, hstate⟩ := Option.map_eq_some_iff.mp hrun
  have hruns : (daemon (ascii "local") 2).Runs Sys.Meets s :=
    .follow (fun _ _ hc => of_decide_eq_true hc) .start hs
  exact ⟨s, hruns, dialogues_sound hruns, of_decide_eq_true hstate⟩

/-- A watcher connects after a stop and before the guard has run. -/
def stoppedRun : List Act :=
  sampleTurn 2 ++ [.stop 0, .watch 0, .watcher 0, .land 0] ++ List.replicate 5 (.run 0 sampleEnv)

/-- The watcher of a stopped dialogue is told that it was not archived, and it was. -/
theorem stopped_watcher_misled : ¬∀ localName slots s,
    (daemon localName slots).Runs (fun _ _ => True) s → s.Sound := by
  intro hclaim
  have hrun : ((daemon (ascii "local") 2).follow (fun _ _ => true) .start stoppedRun).map
      (fun s => (s.dialogues.map (·.archived),
        s.watchers.map fun w => (w.dialogue, w.stage, w.seen.map (·.archived?)))) =
      some ([true], [(0, .ended, [none, none, some false])]) := by
    decide +kernel
  obtain ⟨s, hs, hstate⟩ := Option.map_eq_some_iff.mp hrun
  simp only [Prod.mk.injEq] at hstate
  obtain ⟨harchived, hwatchers⟩ := hstate
  have hsound := hclaim _ _ s (.follow (fun _ _ _ => trivial) .start hs)
  obtain ⟨w, hw, hwatcher⟩ := List.map_eq_singleton_iff.mp hwatchers
  simp only [Prod.mk.injEq] at hwatcher
  obtain ⟨hzero, hended, hseen⟩ := hwatcher
  obtain ⟨d, hd, hwsound⟩ := hsound.watchers w (by simp [hw])
  obtain ⟨-, -, before, e, hcat, he, -⟩ := hwsound.ended hended
  obtain ⟨d', hdialogues, htrue⟩ := List.map_eq_singleton_iff.mp harchived
  rw [hzero, hdialogues] at hd
  obtain rfl : d' = d := Option.some.inj hd
  have hlast : (w.seen.map (·.archived?)).getLast? = some (some d'.archived) := by
    rw [hcat, List.map_append, List.map_singleton, List.getLast?_concat, he]
  rw [hseen, htrue] at hlast
  exact nomatch hlast

end PulseNull.Comms
