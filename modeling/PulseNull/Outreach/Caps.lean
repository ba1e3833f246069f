import PulseNull.Outreach.Admission
import Mathlib.Data.List.Perm.Basic

/-! The daily cap over time: admissions, answers and announcements of any process, and a file that
may become unreadable or corrupt, or go, at any moment. -/
namespace PulseNull.Outreach

/-- What stays the same. -/
structure Setting where
  config : OutreachConfig
  tz : Tz

/-- A message that went out, and the cap in force then. -/
structure Sent where
  message : SentMessage
  cap : Option Nat

/-- The file; what went out; and what went out and is no longer on the log. -/
structure Sys where
  file : StoreFile
  admitted : List Sent
  lost : List SentMessage

def Sys.start : Sys := ⟨.missing, [], []⟩

/-- `renamed` and `written` say how the file operations of an update end. -/
inductive Act where
  | admitCandidate (candidate : OutreachCandidate) (now : Instant) (id : Bytes)
      (gate : OutreachStore → Except RejectionReason Cost) (renamed written : Bool)
  | respond (id : Bytes) (respondedAt : Instant) (rating : Option Rating) (renamed written : Bool)
  | announce (kind : SalienceKind) (tightenedCap : Nat) (announcedAt : Instant)
      (renamed written : Bool)
  | disturb (readable parses : Bool)
  | remove

/-- The file is replaced; what it held, and `new`, is on it from the end on, or lost. -/
def Sys.replace (s : Sys) (file : StoreFile) (new : List SentMessage) : Sys :=
  let all := s.file.log ++ new
  { s with file := file, lost := s.lost ++ all.take (all.length - file.log.length) }

def Setting.inputs (g : Setting) (candidate : OutreachCandidate) (now : Instant) (id : Bytes)
    (gate : OutreachStore → Except RejectionReason Cost) : Inputs :=
  ⟨candidate, g.config, g.tz, now, id, gate⟩

/-- The message that went out is the newest on the log. -/
def Setting.admits (g : Setting) (s : Sys) (i : Inputs) (renamed written : Bool) : Sys :=
  match admitCandidate s.file renamed written [] i with
  | (file, ⟨.admitted _, _⟩) => match file.log.getLast? with
    | some message => { s.replace file [message] with
        admitted := s.admitted ++
          [⟨message, effectiveCap (s.file.records.getD .empty) g.config i.candidate.kind⟩] }
    | none => s.replace file []
  | (file, ⟨.rejected _, _⟩) => s.replace file []

def Setting.step (g : Setting) (s : Sys) : Act → Sys
  | .admitCandidate candidate now id gate renamed written =>
    g.admits s (g.inputs candidate now id gate) renamed written
  | .respond id respondedAt rating renamed written =>
    s.replace (saveDelta s.file renamed written fun store =>
      store.markResponded id respondedAt rating).1 []
  | .announce kind tightenedCap announcedAt renamed written =>
    s.replace (saveDelta s.file renamed written fun store =>
      (store.recordAnnouncement kind tightenedCap announcedAt, ())).1 []
  | .disturb readable parses =>
    s.replace { s.file with readable := readable, parses := parses } []
  | .remove => s.replace .missing []

inductive Setting.Runs (g : Setting) (ok : Sys → Act → Prop) : Sys → Prop where
  | start : g.Runs ok .start
  | step {s : Sys} (act : Act) : g.Runs ok s → ok s act → g.Runs ok (g.step s act)

/-- How many messages of the kind went out on the local day of `now`. -/
def admittedOn (tz : Tz) (kind : SalienceKind) (now : Instant) (admitted : List Sent) : Nat :=
  admitted.countP fun e => onDay tz kind now e.message

/-- No message goes out over the cap in force then, nor over the configured one on any day. -/
structure Setting.Capped (g : Setting) (s : Sys) : Prop where
  inForce : ∀ before e after, s.admitted = before ++ e :: after → ∀ cap ∈ e.cap,
    admittedOn g.tz e.message.kind e.message.sentAt before < cap
  daily : ∀ kind cap, g.config.capFor kind = some cap → ∀ now,
    admittedOn g.tz kind now s.admitted ≤ cap

/-- What keeps the cap: when a candidate of a capped kind is judged, no message of its kind and
local day is missing from the log. -/
def Setting.Meets (g : Setting) (s : Sys) : Act → Prop
  | .admitCandidate candidate now _ _ _ _ => (g.config.capFor candidate.kind).isSome →
    ∀ m ∈ s.lost, onDay g.tz candidate.kind now m = false
  | _ => True

/-! What an update does to the log. -/

/-- What a message is counted by. -/
def SentMessage.key (m : SentMessage) : SalienceKind × Instant := (m.kind, m.sentAt)

@[simp] theorem key_respond (m : SentMessage) (respondedAt : Instant) (rating : Option Rating) :
    (m.respond respondedAt rating).key = m.key := rfl

theorem key_respondFirst (id : Bytes) (respondedAt : Instant) (rating : Option Rating)
    (sent : List SentMessage) :
    (OutreachStore.respondFirst id respondedAt rating sent).map SentMessage.key =
      sent.map SentMessage.key := by
  induction sent with
  | nil => rfl
  | cons m rest ih =>
    unfold OutreachStore.respondFirst
    split
    · rfl
    · rw [List.map_cons, ih, List.map_cons]

/-- The counts of two lists with the same keys agree. -/
theorem countP_onDay_key (tz : Tz) (kind : SalienceKind) (now : Instant) (ms : List SentMessage) :
    ms.countP (onDay tz kind now) = (ms.map SentMessage.key).countP fun k =>
      k.1 = kind && tz.localDay k.2 = tz.localDay now := by
  rw [List.countP_map]
  rfl

/-- The file goes on from the end of what there was. -/
def Continues (before after : List SentMessage) : Prop :=
  after.map SentMessage.key = (before.drop (before.length - after.length)).map SentMessage.key

theorem Continues.of_keys {before after : List SentMessage}
    (h : after.map SentMessage.key = before.map SentMessage.key) : Continues before after := by
  have hlen : after.length = before.length := by simpa using congrArg List.length h
  rw [Continues, hlen, Nat.sub_self, List.drop_zero, h]

theorem Continues.nil (before : List SentMessage) : Continues before [] := by simp [Continues]

theorem Continues.prune (before : List SentMessage) (bound : Nat) :
    Continues before (pruneFront before bound) := by
  unfold Continues pruneFront
  rw [List.length_drop]
  congr 2
  omega

theorem saveDelta_continues {α : Type} {f : StoreFile} {renamed written : Bool}
    {apply : OutreachStore → OutreachStore × α}
    (h : ∀ store, (apply store).1.sent.map SentMessage.key = store.sent.map SentMessage.key) :
    Continues f.log (saveDelta f renamed written apply).1.log := by
  rcases saveDelta_cases f renamed written apply with he | he | ⟨store, hstore, he⟩
  · rw [he]
    exact .of_keys rfl
  · rw [he]
    exact .nil _
  · rw [he, ← hstore]
    exact .of_keys (h store)

/-! The invariant. -/

/-- What went out is on the log or lost. -/
structure Setting.Inv (g : Setting) (s : Sys) : Prop where
  balanced : ((s.admitted.map Sent.message).map SentMessage.key).Perm
    (s.lost.map SentMessage.key ++ s.file.log.map SentMessage.key)
  bounded : s.file.log.length ≤ maxSent
  capped : g.Capped s

variable {g : Setting} {s : Sys}

/-- Nothing is dropped without being lost. -/
theorem replace_keys {file : StoreFile} {new : List SentMessage}
    (h : Continues (s.file.log ++ new) file.log) :
    (s.replace file new).lost.map SentMessage.key ++
        (s.replace file new).file.log.map SentMessage.key =
      s.lost.map SentMessage.key ++ (s.file.log.map SentMessage.key ++ new.map SentMessage.key) := by
  change (s.lost ++ _).map SentMessage.key ++ file.log.map SentMessage.key = _
  rw [h, List.map_append, List.append_assoc, ← List.map_append, List.take_append_drop,
    List.map_append]

theorem Setting.Inv.replace (h : g.Inv s) {file : StoreFile} (hc : Continues s.file.log file.log)
    (hlen : file.log.length ≤ maxSent) : g.Inv (s.replace file []) where
  balanced := by
    rw [replace_keys (by simpa using hc)]
    change List.Perm ((s.admitted.map Sent.message).map SentMessage.key) _
    simpa using h.balanced
  bounded := hlen
  capped := ⟨h.capped.inForce, h.capped.daily⟩

theorem Continues.length_le {before after : List SentMessage} (h : Continues before after) :
    after.length ≤ before.length := by
  have := congrArg List.length h
  simp only [List.length_map, List.length_drop] at this
  omega

/-- While nothing of the kind and day is lost, the log's count is the count of what went out. -/
theorem Setting.Inv.count (h : g.Inv s) {kind : SalienceKind} {now : Instant}
    (hlost : ∀ m ∈ s.lost, onDay g.tz kind now m = false) :
    admittedOn g.tz kind now s.admitted = s.file.log.countP (onDay g.tz kind now) := by
  have hperm := h.balanced.countP_eq fun k => k.1 = kind && g.tz.localDay k.2 = g.tz.localDay now
  have hzero : s.lost.countP (onDay g.tz kind now) = 0 :=
    List.countP_eq_zero.mpr fun m hm => by simp [hlost m hm]
  rw [List.countP_append, ← countP_onDay_key, ← countP_onDay_key, ← countP_onDay_key, hzero,
    Nat.zero_add] at hperm
  rw [admittedOn, ← hperm, List.countP_map]
  rfl

theorem getLast?_pruneFront {α : Type} (items : List α) (item : α) {bound : Nat} (hb : 0 < bound) :
    (pruneFront (items ++ [item]) bound).getLast? = some item := by
  rw [pruneFront, List.getLast?_drop, if_neg, List.getLast?_concat]
  rw [List.length_append, List.length_singleton]
  omega

/-- One more message under the cap. -/
theorem Setting.Capped.add (h : g.Capped s) {message : SentMessage} {cap : Option Nat}
    (under : ∀ n ∈ cap, admittedOn g.tz message.kind message.sentAt s.admitted < n)
    (base : ∀ n, g.config.capFor message.kind = some n → ∃ c ∈ cap, c ≤ n) {s' : Sys}
    (hs : s'.admitted = s.admitted ++ [⟨message, cap⟩]) : g.Capped s' where
  inForce before e after he := by
    rw [hs] at he
    rcases List.eq_nil_or_concat after with rfl | ⟨rest, last, rfl⟩
    · obtain ⟨rfl, rfl⟩ := List.append_inj' he rfl |>.imp_right List.singleton_inj.mp
      exact under
    · rw [List.concat_eq_append, ← List.cons_append, ← List.append_assoc] at he
      exact h.inForce before e rest (List.append_inj' he rfl).1
  daily kind n hn now := by
    rw [hs, admittedOn, List.countP_append, List.countP_singleton]
    have hold := h.daily kind n hn now
    rw [admittedOn] at hold
    by_cases hday : onDay g.tz kind now message = true
    · -- the message is of this kind and day, so its own cap bounds the count before it
      obtain ⟨hkind, htoday⟩ : message.kind = kind ∧
          g.tz.localDay message.sentAt = g.tz.localDay now := by simpa [onDay] using hday
      obtain ⟨c, hc, hle⟩ := base n (hkind ▸ hn)
      have hlt := under c hc
      have heq : onDay g.tz message.kind message.sentAt = onDay g.tz kind now := by
        funext m
        rw [onDay, onDay, hkind, htoday]
      rw [admittedOn, heq] at hlt
      rw [if_pos hday]
      omega
    · rw [if_neg hday]
      omega

theorem effectiveCap_of_capFor {store : OutreachStore} {config : OutreachConfig}
    {kind : SalienceKind} {n : Nat} (h : config.capFor kind = some n) :
    ∃ c ∈ effectiveCap store config kind, c ≤ n := by
  have hsome : (effectiveCap store config kind).isSome := by simp [effectiveCap, h]
  obtain ⟨c, hc⟩ := Option.isSome_iff_exists.mp hsome
  obtain ⟨base, hb, hle⟩ := effectiveCap_le hc
  obtain rfl := Option.some.inj (h.symm.trans hb)
  exact ⟨c, hc, hle⟩

/-- A kind that has a cap in force has a configured one. -/
theorem capFor_isSome {store : OutreachStore} {config : OutreachConfig} {kind : SalienceKind}
    {c : Nat} (h : c ∈ effectiveCap store config kind) : (config.capFor kind).isSome := by
  obtain ⟨base, hb, -⟩ := effectiveCap_le h
  simp [hb]

/-- An admission that lets nothing out leaves the log or loses it; one that does has its message at
the end of the log, under the cap. -/
theorem admit_cases (f : StoreFile) (renamed written : Bool) (detail : Bytes) (i : Inputs) :
    (∃ reason, (admitCandidate f renamed written detail i).2.decision = .rejected reason ∧
      Continues f.log (admitCandidate f renamed written detail i).1.log) ∨
    (∃ cost, (admitCandidate f renamed written detail i).2.decision = .admitted i.id ∧
      (admitCandidate f renamed written detail i).1.log = pruneFront (f.log ++ [i.message cost]) maxSent ∧
      ∀ cap ∈ effectiveCap (f.records.getD .empty) i.config i.candidate.kind,
        (f.records.getD .empty).sentToday i.candidate.kind i.tz i.now < cap) := by
  unfold admitCandidate
  split
  · exact .inl ⟨_, rfl, .of_keys rfl⟩
  · rcases saveDelta_cases f renamed written i.apply with he | he | ⟨store, hstore, he⟩
    · rw [he]
      exact .inl ⟨_, rfl, .of_keys rfl⟩
    · rw [he]
      exact .inl ⟨_, rfl, .nil _⟩
    · have hstore' : store.sent = (f.records.getD .empty).sent := hstore
      rw [he]
      rcases apply_cases i store with ⟨hno, hsent⟩ | ⟨cost, hyes, hsent, hcap⟩
      · refine .inl ?_
        cases hd : (i.apply store).2.decision with
        | admitted id => exact absurd hd (hno id)
        | rejected reason =>
          refine ⟨reason, rfl, .of_keys ?_⟩
          change (i.apply store).1.sent.map SentMessage.key = _
          rw [hsent, hstore]
      · refine .inr ⟨cost, hyes, ?_, ?_⟩
        · change (i.apply store).1.sent = _
          rw [hsent, hstore]
        · rw [effectiveCap_congr hstore', OutreachStore.sentToday, hstore'] at hcap
          exact hcap

theorem Setting.Inv.admits (h : g.Inv s) {candidate : OutreachCandidate} {now : Instant} {id : Bytes}
    {gate : OutreachStore → Except RejectionReason Cost} {renamed written : Bool}
    (ok : g.Meets s (.admitCandidate candidate now id gate renamed written)) :
    g.Inv (g.admits s (g.inputs candidate now id gate) renamed written) := by
  rcases admit_cases s.file renamed written [] (g.inputs candidate now id gate) with
    ⟨reason, hd, hc⟩ | ⟨cost, hd, hlog, hcap⟩
  · have he : g.admits s (g.inputs candidate now id gate) renamed written = s.replace
        (Outreach.admitCandidate s.file renamed written [] (g.inputs candidate now id gate)).1 [] := by
      unfold Setting.admits
      generalize Outreach.admitCandidate s.file renamed written [] (g.inputs candidate now id gate) = r at hd
      obtain ⟨file, decision, notice⟩ := r
      cases hd
      rfl
    rw [he]
    exact h.replace hc (hc.length_le.trans h.bounded)
  · have hlast := getLast?_pruneFront s.file.log ((g.inputs candidate now id gate).message cost)
      (show 0 < maxSent by decide)
    rw [← hlog] at hlast
    have he : g.admits s (g.inputs candidate now id gate) renamed written =
        { s.replace (Outreach.admitCandidate s.file renamed written [] (g.inputs candidate now id gate)).1
            [(g.inputs candidate now id gate).message cost] with
          admitted := s.admitted ++ [⟨(g.inputs candidate now id gate).message cost,
            effectiveCap (s.file.records.getD .empty) g.config candidate.kind⟩] } := by
      unfold Setting.admits
      generalize Outreach.admitCandidate s.file renamed written [] (g.inputs candidate now id gate) = r
        at hd hlast
      obtain ⟨file, decision, notice⟩ := r
      cases hd
      dsimp only at hlast ⊢
      rw [hlast]
      rfl
    have hc : Continues (s.file.log ++ [(g.inputs candidate now id gate).message cost])
        (Outreach.admitCandidate s.file renamed written [] (g.inputs candidate now id gate)).1.log := by
      rw [hlog]
      exact .prune _ _
    rw [he]
    refine ⟨?_, ?_, h.capped.add ?_ (fun n hn => effectiveCap_of_capFor hn) rfl⟩
    · have hbal := h.balanced.append_right
        ([(g.inputs candidate now id gate).message cost].map SentMessage.key)
      rw [List.append_assoc, ← replace_keys hc, ← List.map_append] at hbal
      change List.Perm (((s.admitted ++ [_]).map Sent.message).map SentMessage.key) _
      rw [List.map_append]
      exact hbal
    · change (Outreach.admitCandidate s.file renamed written [] _).1.log.length ≤ maxSent
      rw [hlog, pruneFront, List.length_drop]
      omega
    · -- the log's count is the count of what went out that day
      intro n hn
      have hlost := ok (capFor_isSome hn)
      have hlt := hcap n hn
      rw [OutreachStore.sentToday] at hlt
      change admittedOn g.tz candidate.kind now s.admitted < n
      rw [h.count hlost]
      have hlen := (List.countP_le_length (p := onDay g.tz candidate.kind now)).trans h.bounded
      have hsmall : s.file.log.countP (onDay g.tz candidate.kind now) ≤ 2^32 - 1 :=
        hlen.trans (by decide)
      exact (Nat.min_eq_left hsmall) ▸ hlt

theorem Setting.Inv.step {act : Act} (h : g.Inv s) (ok : g.Meets s act) : g.Inv (g.step s act) := by
  have keep {file : StoreFile} (hc : Continues s.file.log file.log) : g.Inv (s.replace file []) :=
    h.replace hc (hc.length_le.trans h.bounded)
  cases act with
  | admitCandidate candidate now id gate renamed written => exact h.admits ok
  | respond id respondedAt rating renamed written =>
    exact keep (saveDelta_continues fun store => key_respondFirst _ _ _ _)
  | announce kind tightenedCap announcedAt renamed written =>
    exact keep (saveDelta_continues fun store => rfl)
  | disturb readable parses => exact keep (.of_keys rfl)
  | remove => exact keep (.nil _)

/-- While no candidate of a capped kind is judged by a log that lost a message of its kind and
day, the cap in force is kept on every local day. -/
theorem cap_kept (h : g.Runs g.Meets s) : g.Capped s := by
  suffices g.Inv s from this.capped
  induction h with
  | start =>
    refine ⟨.nil, by decide, fun before e after he => ?_, fun kind cap _ now => Nat.zero_le _⟩
    cases before <;> cases he
  | step act _ ok ih => exact ih.step ok

/-! A sample pulse: UTC, one development a day, two findings and two callbacks. -/

def sampleConfig : OutreachConfig := ⟨true, 23, 8, 2, 1, 2, 20, fun r n => 3 * n ≤ 10 * r⟩

def sampleSetting : Setting := ⟨sampleConfig, ⟨0⟩⟩

def sampleCandidate (kind : SalienceKind) : OutreachCandidate := ⟨kind, none, [104], [101]⟩

/-- Noon of a day, and every gate passed. -/
def sampleAdmit (kind : SalienceKind) (day : Int) (id : Bytes) : Act :=
  .admitCandidate (sampleCandidate kind) (day * 86400 + 43200) id (fun _ => .ok .read) true true

def sampleRun (acts : List Act) : Sys := acts.foldl sampleSetting.step .start

instance (g : Setting) (s : Sys) : (act : Act) → Decidable (g.Meets s act)
  | .admitCandidate _ _ _ _ _ _ => inferInstanceAs (Decidable (_ → ∀ m ∈ s.lost, _))
  | .respond _ _ _ _ _ | .announce _ _ _ _ _ | .disturb _ _ | .remove =>
    inferInstanceAs (Decidable True)

/-- A second development the same day is turned away; the next day one goes out. -/
theorem cap_kept_sample : ∃ s, sampleSetting.Runs sampleSetting.Meets s ∧ sampleSetting.Capped s ∧
    s.admitted.map (fun e => e.message.id) = [[97], [99]] := by
  have first : sampleSetting.Runs sampleSetting.Meets
      (sampleRun [sampleAdmit .development 0 [97]]) :=
    .step (sampleAdmit .development 0 [97]) .start (by decide +kernel)
  have second : sampleSetting.Runs sampleSetting.Meets
      (sampleRun [sampleAdmit .development 0 [97], sampleAdmit .development 0 [98]]) :=
    .step (sampleAdmit .development 0 [98]) first (by decide +kernel)
  have h : sampleSetting.Runs sampleSetting.Meets (sampleRun [sampleAdmit .development 0 [97],
      sampleAdmit .development 0 [98], sampleAdmit .development 1 [99]]) :=
    .step (sampleAdmit .development 1 [99]) second (by decide +kernel)
  exact ⟨_, h, cap_kept h, by decide +kernel⟩

theorem runs_foldl {acts : List Act} (h : g.Runs (fun _ _ => True) s) :
    g.Runs (fun _ _ => True) (acts.foldl g.step s) := by
  induction acts generalizing s with
  | nil => exact h
  | cons act acts ih => exact ih (h.step act trivial)

/-- The log does not parse, and one candidate moves it aside: the next one sees an empty day. And
200 uncapped messages push the day's development off the log. -/
theorem lost_log_admits_again :
    (∃ s, sampleSetting.Runs (fun _ _ => True) s ∧ s.admitted.map
        (fun e => (e.message.id, e.message.kind, e.cap, e.message.sentAt)) =
      [([97], .development, some 1, 43200), ([99], .development, some 1, 43200)]) ∧
    (∃ s, sampleSetting.Runs (fun _ _ => True) s ∧ (s.admitted.filter
        fun e => e.message.kind = .development).map (fun e => (e.message.id, e.cap, e.message.sentAt)) =
      [([97], some 1, 43200), ([99], some 1, 43200)]) := by
  refine ⟨⟨sampleRun [sampleAdmit .development 0 [97], .disturb true false,
      sampleAdmit .development 0 [98], sampleAdmit .development 0 [99]], runs_foldl .start, ?_⟩,
    ⟨sampleRun (sampleAdmit .development 0 [97] ::
      (List.replicate 200 (sampleAdmit .blocking 0 [98]) ++ [sampleAdmit .development 0 [99]])),
      runs_foldl .start, ?_⟩⟩
  · decide +kernel
  · decide +kernel

end PulseNull.Outreach
