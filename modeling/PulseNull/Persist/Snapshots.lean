import PulseNull.Machine
import PulseNull.Directory

/-! Snapshots of one session or channel buffer on their way to disk: writers of one temporary file,
on threads of their own, and the coordinator that counts them. -/
namespace PulseNull.Persist.Snapshots

/-- The file of the key and the temporary file beside it. -/
inductive Name where
  | file
  | tmp
  deriving DecidableEq

/-- What a writer does around its rename: whether it removes the temporary file when that failed,
and whether it goes on to write a markdown copy under another name. -/
structure Flow where
  removesTmp : Bool
  markdown : Bool
  deriving DecidableEq

def persistSessionData : Flow := ⟨true, false⟩
def persistBuffer : Flow := ⟨false, true⟩

/-- The call that a writer makes next. -/
inductive Stage where
  | queued
  | writing (file offset : ℕ)
  | removing
  | markdown
  | ended
  | done
  deriving DecidableEq

/-- A writer and the JSON of its snapshot. -/
structure Writer where
  snap : Bytes
  stage : Stage
  deriving DecidableEq

/-- The writers in the order their snapshots were handed over, and the counter of all tracked tasks,
of which `others` have to do with other files. -/
structure Sys where
  flow : Flow
  dir : Directory Name
  writers : List Writer
  inFlight : ℕ
  others : ℕ

inductive Act where
  | hand (snap : Bytes)
  | create (i : ℕ) (fails : Bool)
  | write (i bytes : ℕ) (fails : Bool)
  | rename (i : ℕ) (fails : Bool)
  | remove (i : ℕ) (fails : Bool)
  | markdown (i : ℕ)
  | drop (i : ℕ)
  | otherTracked
  | otherDropped

def Sys.put (s : Sys) (i : ℕ) (w : Writer) (stage : Stage) : Sys :=
  { s with writers := s.writers.set i { w with stage := stage } }

/-- After the rename. -/
def Flow.next (flow : Flow) : Stage := if flow.markdown then .markdown else .ended

def Sys.renamed (s : Sys) (i : ℕ) (w : Writer) : Option (Directory Name) → Sys
  | some dir => { s with dir := dir }.put i w s.flow.next
  | none => s.put i w (if s.flow.removesTmp then .removing else s.flow.next)

/-- One call of the writer; a call it is not at leaves everything as it is. -/
def Sys.advance (s : Sys) (w : Writer) : Act → Sys
  | .create i fails =>
    match w.stage with
    | .queued =>
      if fails then s.put i w .ended
      else { s with dir := (s.dir.openTrunc .tmp).2 }.put i w (.writing (s.dir.openTrunc .tmp).1 0)
    | _ => s
  | .write i bytes fails =>
    match w.stage with
    | .writing file offset =>
      if fails then s.put i w .ended
      else
        let chunk := (w.snap.drop offset).take bytes
        { s with dir := s.dir.writeAt file offset chunk }.put i w (.writing file (offset + chunk.length))
    | _ => s
  | .rename i fails =>
    match w.stage with
    | .writing _ offset =>
      if offset = w.snap.length then s.renamed i w (if fails then none else s.dir.rename .tmp .file)
      else s
    | _ => s
  | .remove i fails =>
    match w.stage with
    | .removing => { s with dir := if fails then s.dir else s.dir.remove .tmp }.put i w .ended
    | _ => s
  | .markdown i =>
    match w.stage with
    | .markdown => s.put i w .ended
    | _ => s
  | .drop i =>
    match w.stage with
    | .ended => { s with inFlight := s.inFlight - 1 }.put i w .done
    | _ => s
  | _ => s

def Act.writer : Act → Option ℕ
  | .create i _ | .write i _ _ | .rename i _ | .remove i _ | .markdown i | .drop i => some i
  | .hand _ | .otherTracked | .otherDropped => none

def Sys.step (s : Sys) (act : Act) : Sys :=
  match act with
  | .hand snap => { s with writers := s.writers ++ [⟨snap, .queued⟩], inFlight := s.inFlight + 1 }
  | .otherTracked => { s with others := s.others + 1, inFlight := s.inFlight + 1 }
  | .otherDropped =>
    if s.others = 0 then s else { s with others := s.others - 1, inFlight := s.inFlight - 1 }
  | act =>
    match act.writer.bind (s.writers[·]?) with
    | some w => s.advance w act
    | none => s

def persist (flow : Flow) (dir : Directory Name) : Machine Sys Act := ⟨⟨flow, dir, [], 0, 0⟩, Sys.step⟩

/-- The file is what it was at first or a snapshot, whole; and when a flush finds nothing in flight,
it is the last snapshot handed over. -/
structure Sys.Sound (s : Sys) (first : Option Bytes) : Prop where
  whole : s.dir.read .file = first ∨ ∃ w ∈ s.writers, s.dir.read .file = some w.snap
  last : s.inFlight = 0 → ∀ w, s.writers.getLast? = some w → s.dir.read .file = some w.snap

/-- A task is in flight until its guard is dropped. -/
def Writer.tracked (w : Writer) : Bool := w.stage ≠ .done

/-- Between its open of the temporary file and the end of its use. -/
def Stage.active : Stage → Bool
  | .writing _ _ | .removing => true
  | .queued | .markdown | .ended | .done => false

/-- A writer opens the temporary file only while no other uses it and the last snapshot handed over
has not been begun; and no call of the last snapshot's writer fails. -/
def Meets (s : Sys) : Act → Prop
  | .create i fails => (∀ w ∈ s.writers, w.stage.active = false) ∧
      (∀ w, s.writers.getLast? = some w → w.stage = .queued) ∧
      (fails = true → i + 1 ≠ s.writers.length)
  | .write i _ fails | .rename i fails => fails = true → i + 1 ≠ s.writers.length
  | _ => True

/-! The invariant. -/

/-- The temporary file is the one the writer has open, and holds what it has written. -/
structure Writes (dir : Directory Name) (w : Writer) (file offset : ℕ) : Prop where
  entry : dir.entry .tmp = some file
  data : dir.data file = w.snap.take offset
  le : offset ≤ w.snap.length

def Stage.past (stage : Stage) : Prop := stage = .removing ∨ stage = .markdown ∨ stage = .ended ∨ stage = .done

structure Sys.Inv (s : Sys) (first : Option Bytes) : Prop where
  dir : s.dir.Sound
  whole : s.dir.read .file = first ∨ ∃ w ∈ s.writers, s.dir.read .file = some w.snap
  count : s.inFlight = s.others + s.writers.countP Writer.tracked
  writing : ∀ (i : ℕ) (w : Writer) (file offset : ℕ), s.writers[i]? = some w →
    w.stage = .writing file offset → Writes s.dir w file offset
  sole : ∀ (i j : ℕ) (w v : Writer), s.writers[i]? = some w → w.stage.active = true → j ≠ i →
    s.writers[j]? = some v → v.stage.active = false ∧ (j + 1 = s.writers.length → v.stage = .queued)
  last : ∀ (i : ℕ) (w : Writer), s.writers[i]? = some w → i + 1 = s.writers.length → w.stage.past →
    s.dir.read .file = some w.snap

variable {s : Sys} {first : Option Bytes} {i j : ℕ} {w v : Writer} {stage : Stage}

/-- What stands where after one writer has moved on. -/
theorem put_get (h : s.writers[i]? = some w) (hj : (s.put i w stage).writers[j]? = some v) :
    j = i ∧ v = { w with stage := stage } ∨ j ≠ i ∧ s.writers[j]? = some v := by
  by_cases heq : j = i
  · have hlt : i < s.writers.length := (List.getElem?_eq_some_iff.mp h).1
    rw [heq, Sys.put, List.getElem?_set_self hlt] at hj
    exact .inl ⟨heq, (Option.some.inj hj).symm⟩
  · rw [Sys.put, List.getElem?_set_ne (Ne.symm heq)] at hj
    exact .inr ⟨heq, hj⟩

@[simp] theorem put_length : (s.put i w stage).writers.length = s.writers.length := List.length_set ..

/-- A snapshot stays one when its writer moves on. -/
theorem put_snap (h : s.writers[i]? = some w) {bytes : Option Bytes}
    (hx : ∃ v ∈ s.writers, bytes = some v.snap) :
    ∃ v ∈ (s.put i w stage).writers, bytes = some v.snap := by
  obtain ⟨v, hv, rfl⟩ := hx
  obtain ⟨j, hj⟩ := List.mem_iff_getElem?.mp hv
  have hlt : i < s.writers.length := (List.getElem?_eq_some_iff.mp h).1
  by_cases heq : j = i
  · rw [heq, h] at hj
    obtain rfl := Option.some.inj hj
    exact ⟨{ w with stage := stage }, List.mem_set hlt _, rfl⟩
  · refine ⟨v, List.mem_iff_getElem?.mpr ⟨j, ?_⟩, rfl⟩
    rw [Sys.put, List.getElem?_set_ne (Ne.symm heq), hj]

/-- The tasks in flight among the writers, before and after one has moved on. -/
theorem put_count (h : s.writers[i]? = some w) (hw : w.stage ≠ .done) :
    (s.put i w stage).writers.countP Writer.tracked + (if stage = .done then 1 else 0) =
      s.writers.countP Writer.tracked := by
  obtain ⟨hlt, hget⟩ := List.getElem?_eq_some_iff.mp h
  have htracked : w.tracked = true := decide_eq_true hw
  have hpos : 0 < s.writers.countP Writer.tracked :=
    List.countP_pos_iff.mpr ⟨w, List.mem_of_getElem? h, htracked⟩
  rw [Sys.put, List.countP_set hlt, hget, if_pos htracked]
  by_cases hs : stage = .done
  · rw [if_neg (by simp [Writer.tracked, hs]), if_pos hs]
    omega
  · have hnew : Writer.tracked { w with stage := stage } = true := decide_eq_true hs
    rw [if_pos hnew, if_neg hs]
    omega

/-- A writer moves on, and no other is at the temporary file before or after. -/
theorem Sys.Inv.alone (h : s.Inv first) (hi : s.writers[i]? = some w) (hw : w.stage ≠ .done)
    (stage : Stage) (hs : stage ≠ .done) {dir : Directory Name} (hdir : dir.Sound)
    (hothers : ∀ (j : ℕ) (v : Writer), j ≠ i → s.writers[j]? = some v → v.stage.active = false ∧
      (j + 1 = s.writers.length → stage.active = true → v.stage = .queued))
    (hwhole : dir.read .file = first ∨ ∃ v ∈ s.writers, dir.read .file = some v.snap)
    (hwriting : ∀ file offset, stage = .writing file offset → Writes dir w file offset)
    (hlast : i + 1 = s.writers.length → stage.past → dir.read .file = some w.snap)
    (hkept : ∀ (j : ℕ) (v : Writer), j ≠ i → s.writers[j]? = some v → j + 1 = s.writers.length →
      v.stage.past → dir.read .file = s.dir.read .file) :
    Sys.Inv ({ s with dir := dir }.put i w stage) first where
  dir := hdir
  whole := hwhole.imp_right fun hx => put_snap (s := { s with dir := dir }) hi hx
  count := by
    have hc := @put_count { s with dir := dir } i w stage hi hw
    rw [if_neg hs, add_zero] at hc
    rw [hc]
    exact h.count
  writing j v file offset hj hv := by
    rcases put_get (s := { s with dir := dir }) hi hj with ⟨-, rfl⟩ | ⟨hne, hj⟩
    · obtain ⟨he, hd, hle⟩ := hwriting file offset hv
      exact ⟨he, hd, hle⟩
    · exact absurd (hothers j v hne hj).1 (by simp [hv, Stage.active])
  sole j k v u hj hv hk hu := by
    rw [put_length]
    rcases put_get (s := { s with dir := dir }) hi hj with ⟨rfl, rfl⟩ | ⟨hne, hj⟩
    · rcases put_get (s := { s with dir := dir }) hi hu with ⟨heq, -⟩ | ⟨hnk, hu⟩
      · exact absurd heq hk
      · obtain ⟨ha, hq⟩ := hothers k u hnk hu
        exact ⟨ha, fun hlen => hq hlen hv⟩
    · exact absurd (hothers j v hne hj).1 (by simp [hv])
  last j v hj hlen hv := by
    rw [put_length] at hlen
    rcases put_get (s := { s with dir := dir }) hi hj with ⟨rfl, rfl⟩ | ⟨hne, hj⟩
    · exact hlast hlen hv
    · exact (hkept j v hne hj hlen hv).trans (h.last j v hj hlen hv)

/-- A writer moves on that is through with the temporary file. -/
theorem Sys.Inv.quiet (h : s.Inv first) (hi : s.writers[i]? = some w) (hw : w.stage ≠ .done)
    (hpast : w.stage.past) (hs : stage.active = false) {n : ℕ}
    (hn : n + (if stage = .done then 1 else 0) = s.inFlight) :
    Sys.Inv ({ s with inFlight := n }.put i w stage) first where
  dir := h.dir
  whole := h.whole.imp_right fun hx => put_snap (s := { s with inFlight := n }) hi hx
  count := by
    have hc := @put_count { s with inFlight := n } i w stage hi hw
    have hcount := h.count
    change n = s.others + _
    change _ = s.writers.countP Writer.tracked at hc
    omega
  writing j v file offset hj hv := by
    rcases put_get (s := { s with inFlight := n }) hi hj with ⟨-, rfl⟩ | ⟨hne, hj⟩
    · rw [show stage = .writing file offset from hv] at hs
      cases hs
    · exact h.writing j v file offset hj hv
  sole j k v u hj hv hk hu := by
    rw [put_length]
    rcases put_get (s := { s with inFlight := n }) hi hj with ⟨-, rfl⟩ | ⟨hne, hj⟩
    · exact absurd hv (by simp [hs])
    rcases put_get (s := { s with inFlight := n }) hi hu with ⟨hki, rfl⟩ | ⟨-, hu⟩
    · refine ⟨hs, fun hlen => ?_⟩
      have hq := (h.sole j i v w hj hv (hki ▸ hk) hi).2 (hki ▸ hlen)
      rw [hq] at hpast
      rcases hpast with hx | hx | hx | hx <;> cases hx
    · exact h.sole j k v u hj hv hk hu
  last j v hj hlen hv := by
    rw [put_length] at hlen
    rcases put_get (s := { s with inFlight := n }) hi hj with ⟨rfl, rfl⟩ | ⟨hne, hj⟩
    · exact h.last j w hi hlen hpast
    · exact h.last j v hj hlen hv

theorem Sys.Inv.hand (h : s.Inv first) (snap : Bytes) :
    Sys.Inv { s with writers := s.writers ++ [⟨snap, .queued⟩], inFlight := s.inFlight + 1 } first := by
  have hget : ∀ (j : ℕ) (v : Writer), (s.writers ++ [⟨snap, .queued⟩])[j]? = some v →
      s.writers[j]? = some v ∨ j = s.writers.length ∧ v = ⟨snap, .queued⟩ := by
    intro j v hj
    rcases Nat.lt_trichotomy j s.writers.length with hlt | rfl | hgt
    · exact .inl (by rwa [List.getElem?_append_left hlt] at hj)
    · rw [List.getElem?_concat_length] at hj
      exact .inr ⟨rfl, (Option.some.inj hj).symm⟩
    · rw [List.getElem?_eq_none (by simp; omega)] at hj
      cases hj
  refine ⟨h.dir, h.whole.imp_right fun ⟨v, hv, hx⟩ => ⟨v, List.mem_append_left _ hv, hx⟩, ?_,
    fun j v file offset hj hv => ?_, fun j k v u hj hv hk hu => ?_, fun j v hj hlen hv => ?_⟩
  · have hcount := h.count
    rw [List.countP_append]
    change s.inFlight + 1 = s.others + (_ + 1)
    omega
  · rcases hget j v hj with hj | ⟨-, rfl⟩
    · exact h.writing j v file offset hj hv
    · cases hv
  · rcases hget j v hj with hj | ⟨-, rfl⟩
    · rcases hget k u hu with hu | ⟨-, rfl⟩
      · refine ⟨(h.sole j k v u hj hv hk hu).1, fun hlen => ?_⟩
        have hlt : k < s.writers.length := (List.getElem?_eq_some_iff.mp hu).1
        rw [List.length_append, List.length_singleton] at hlen
        omega
      · exact ⟨rfl, fun _ => rfl⟩
    · cases hv
  · rcases hget j v hj with hj | ⟨-, rfl⟩
    · have hlt : j < s.writers.length := (List.getElem?_eq_some_iff.mp hj).1
      rw [List.length_append, List.length_singleton] at hlen
      omega
    · rcases hv with hx | hx | hx | hx <;> cases hx

private theorem last_queued (h : ∀ w, s.writers.getLast? = some w → w.stage = .queued)
    (hj : s.writers[j]? = some v) (hlen : j + 1 = s.writers.length) : v.stage = .queued := by
  refine h v ?_
  rw [List.getLast?_eq_getElem?, ← hlen, Nat.add_sub_cancel, hj]

theorem Sys.Inv.create (h : s.Inv first) (hi : s.writers[i]? = some w) {fails : Bool}
    (ok : Meets s (.create i fails)) : (s.advance w (.create i fails)).Inv first := by
  obtain ⟨hidle, hlastq, hfails⟩ := ok
  have hothers (stage : Stage) : ∀ (j : ℕ) (v : Writer), j ≠ i → s.writers[j]? = some v →
      v.stage.active = false ∧ (j + 1 = s.writers.length → stage.active = true → v.stage = .queued) :=
    fun j v _ hj => ⟨hidle v (List.mem_of_getElem? hj), fun hlen _ => last_queued hlastq hj hlen⟩
  simp only [Sys.advance]
  split
  · next hst =>
    have hw : w.stage ≠ .done := by rw [hst]; nofun
    split
    · next hf =>
      exact h.alone hi hw .ended nofun h.dir (hothers _) h.whole nofun
        (fun hlen _ => absurd hlen (hfails hf)) fun _ _ _ _ _ _ => rfl
    · have hread : (s.dir.openTrunc .tmp).2.read .file = s.dir.read .file :=
        Directory.read_openTrunc h.dir nofun
      refine h.alone hi hw (.writing _ 0) nofun (h.dir.openTrunc .tmp) (hothers _)
        (by rw [hread]; exact h.whole) ?_ ?_ fun _ _ _ _ _ _ => hread
      · rintro file offset hx
        obtain ⟨rfl, rfl⟩ := Stage.writing.inj hx
        exact ⟨Directory.openTrunc_entry _ _, by rw [Directory.openTrunc_data, List.take_zero],
          Nat.zero_le _⟩
      · rintro - (hx | hx | hx | hx) <;> cases hx
  · exact h

theorem Sys.Inv.others (h : s.Inv first) (hi : s.writers[i]? = some w) (ha : w.stage.active = true)
    (stage : Stage) : ∀ (j : ℕ) (v : Writer), j ≠ i → s.writers[j]? = some v →
      v.stage.active = false ∧ (j + 1 = s.writers.length → stage.active = true → v.stage = .queued) :=
  fun j v hj hv => ⟨(h.sole i j w v hi ha hj hv).1, fun hlen _ => (h.sole i j w v hi ha hj hv).2 hlen⟩

theorem Sys.Inv.write (h : s.Inv first) (hi : s.writers[i]? = some w) {bytes : ℕ} {fails : Bool}
    (ok : Meets s (.write i bytes fails)) : (s.advance w (.write i bytes fails)).Inv first := by
  simp only [Sys.advance]
  split
  · next file offset hst =>
    have hw : w.stage ≠ .done := by rw [hst]; nofun
    have ha : w.stage.active = true := by rw [hst]; rfl
    obtain ⟨hentry, hdata, hle⟩ := h.writing i w file offset hi hst
    split
    · next hf =>
      exact h.alone hi hw .ended nofun h.dir (h.others hi ha _) h.whole nofun
        (fun hlen _ => absurd hlen (ok hf)) fun _ _ _ _ _ _ => rfl
    · have hread (chunk : Bytes) : (s.dir.writeAt file offset chunk).read .file = s.dir.read .file :=
        Directory.read_update _ (h.dir.ne hentry nofun)
      refine h.alone hi hw (.writing file _) nofun (h.dir.writeAt file offset _) (h.others hi ha _)
        (by rw [hread]; exact h.whole) ?_ ?_ fun _ _ _ _ _ _ => hread _
      · rintro file' offset' hx
        obtain ⟨rfl, rfl⟩ := Stage.writing.inj hx
        have hlen : (s.dir.data file).length = offset := by
          rw [hdata, List.length_take, Nat.min_eq_left hle]
        refine ⟨hentry, ?_, ?_⟩
        · rw [Directory.writeAt]
          simp only [Function.update_self]
          rw [← hlen, Directory.overwrite_append, hlen, hdata]
          rw [List.take_add, List.length_take, ← List.take_eq_take_min]
        · rw [List.length_take, List.length_drop]
          omega
      · rintro - (hx | hx | hx | hx) <;> cases hx
  · exact h

theorem Flow.next_inactive (flow : Flow) : flow.next.active = false ∧ flow.next ≠ .done := by
  unfold Flow.next
  split <;> exact ⟨rfl, nofun⟩

theorem Sys.Inv.rename (h : s.Inv first) (hi : s.writers[i]? = some w) {fails : Bool}
    (ok : Meets s (.rename i fails)) : (s.advance w (.rename i fails)).Inv first := by
  simp only [Sys.advance]
  split
  · next file offset hst =>
    have hw : w.stage ≠ .done := by rw [hst]; nofun
    have ha : w.stage.active = true := by rw [hst]; rfl
    obtain ⟨hentry, hdata, hle⟩ := h.writing i w file offset hi hst
    obtain ⟨hnext, hnextd⟩ := s.flow.next_inactive
    split
    · next hall =>
      cases hf : fails with
      | true =>
        have hfailed (stage : Stage) (hs : stage ≠ .done)
            (hnw : ∀ file offset, stage ≠ .writing file offset) : (s.put i w stage).Inv first :=
          h.alone hi hw stage hs h.dir (h.others hi ha _) h.whole
            (fun file offset hx => absurd hx (hnw file offset)) (fun hlen _ => absurd hlen (ok hf))
            fun _ _ _ _ _ _ => rfl
        refine hfailed _ ?_ fun file offset hx => ?_
        · split
          · nofun
          · exact hnextd
        · split at hx
          · cases hx
          · rw [hx] at hnext
            cases hnext
      | false =>
        obtain ⟨dir, hr⟩ : ∃ dir, s.dir.rename .tmp .file = some dir := by
          rw [Directory.rename, hentry]
          exact ⟨_, rfl⟩
        have hread : dir.read .file = some w.snap := by
          rw [Directory.read_rename hr, Directory.read, hentry, Option.map_some, hdata, hall,
            List.take_length]
        simp only [Bool.false_eq_true, if_false, hr]
        refine h.alone hi hw _ hnextd (h.dir.rename hr) (h.others hi ha _)
          (.inr ⟨w, List.mem_of_getElem? hi, hread⟩) (fun file offset hx => ?_) (fun _ _ => hread)
          fun j v hj hv hlen hpast => ?_
        · rw [hx] at hnext
          cases hnext
        · -- the last snapshot waits for this one
          rw [(h.sole i j w v hi ha hj hv).2 hlen] at hpast
          rcases hpast with hx | hx | hx | hx <;> cases hx
    · exact h
  · exact h

theorem Sys.Inv.remove (h : s.Inv first) (hi : s.writers[i]? = some w) (fails : Bool) :
    (s.advance w (.remove i fails)).Inv first := by
  simp only [Sys.advance]
  split
  · next hst =>
    have hw : w.stage ≠ .done := by rw [hst]; nofun
    have ha : w.stage.active = true := by rw [hst]; rfl
    have hread : (if fails then s.dir else s.dir.remove .tmp).read .file = s.dir.read .file := by
      split
      · rfl
      · exact Directory.read_remove nofun
    have hdir : (if fails then s.dir else s.dir.remove .tmp).Sound := by
      split
      · exact h.dir
      · exact h.dir.remove .tmp
    exact h.alone hi hw .ended nofun hdir (h.others hi ha _) (by rw [hread]; exact h.whole) nofun
      (fun hlen _ => hread.trans (h.last i w hi hlen (.inl hst))) fun _ _ _ _ _ _ => hread
  · exact h

theorem Sys.Inv.step (h : s.Inv first) {act : Act} (ok : Meets s act) : (s.step act).Inv first := by
  cases act with
  | hand snap => exact h.hand snap
  | otherTracked =>
    refine ⟨h.dir, h.whole, ?_, h.writing, h.sole, h.last⟩
    have hcount := h.count
    change s.inFlight + 1 = s.others + 1 + s.writers.countP Writer.tracked
    omega
  | otherDropped =>
    simp only [Sys.step]
    split
    · exact h
    · refine ⟨h.dir, h.whole, ?_, h.writing, h.sole, h.last⟩
      have hcount := h.count
      change s.inFlight - 1 = s.others - 1 + s.writers.countP Writer.tracked
      omega
  | create i fails =>
    simp only [Sys.step, Act.writer, Option.bind_some]
    split
    · next w hi => exact h.create hi ok
    · exact h
  | write i bytes fails =>
    simp only [Sys.step, Act.writer, Option.bind_some]
    split
    · next w hi => exact h.write hi ok
    · exact h
  | rename i fails =>
    simp only [Sys.step, Act.writer, Option.bind_some]
    split
    · next w hi => exact h.rename hi ok
    · exact h
  | remove i fails =>
    simp only [Sys.step, Act.writer, Option.bind_some]
    split
    · next w hi => exact h.remove hi fails
    · exact h
  | markdown i =>
    simp only [Sys.step, Act.writer, Option.bind_some]
    split
    · next w hi =>
      simp only [Sys.advance]
      split
      · next hst =>
        have hw : w.stage ≠ .done := by rw [hst]; nofun
        exact h.quiet hi hw (.inr (.inl hst)) rfl rfl
      · exact h
    · exact h
  | drop i =>
    simp only [Sys.step, Act.writer, Option.bind_some]
    split
    · next w hi =>
      simp only [Sys.advance]
      split
      · next hst =>
        have hw : w.stage ≠ .done := by rw [hst]; nofun
        have hpos : 0 < s.writers.countP Writer.tracked :=
          List.countP_pos_iff.mpr ⟨w, List.mem_of_getElem? hi, decide_eq_true hw⟩
        have hcount := h.count
        refine h.quiet hi hw (.inr (.inr (.inl hst))) rfl ?_
        rw [if_pos rfl]
        omega
      · exact h
    · exact h

/-- Once every writer is through, the file is the last snapshot. -/
theorem Sys.Inv.sound (h : s.Inv first) : s.Sound first := by
  refine ⟨h.whole, fun hzero w hw => ?_⟩
  have hnone : s.writers.countP Writer.tracked = 0 := by
    have hcount := h.count
    omega
  have hdone : w.stage = .done := by
    simpa [Writer.tracked] using List.countP_eq_zero.mp hnone w (List.mem_of_getLast? hw)
  rw [List.getLast?_eq_getElem?] at hw
  have hlt := (List.getElem?_eq_some_iff.mp hw).1
  exact h.last _ w hw (by omega) (.inr (.inr (.inr hdone)))

/-- The last snapshot wins, and the file is whole at every moment, while writers keep out of each
other's way. -/
theorem snapshots_sound {flow : Flow} {dir : Directory Name} (hdir : dir.Sound)
    (h : (persist flow dir).Runs Meets s) : s.Sound (dir.read .file) := by
  refine Sys.Inv.sound (h.invariant (I := fun s => s.Inv (dir.read .file)) ?_ fun _ _ hs ok => hs.step ok)
  exact ⟨hdir, .inl rfl, rfl, nofun, nofun, nofun⟩

/-! Sample writers. -/

/-- A file from before and what a writer left of the temporary file. -/
def sampleDir : Directory Name :=
  ⟨fun | .file => some 0 | .tmp => some 1, fun file => [file.toUInt8], 2⟩

theorem sampleDir_sound : sampleDir.Sound := by
  constructor
  · rintro (_ | _) file h <;> cases h <;> decide
  · rintro (_ | _) (_ | _) file h h' <;> first | rfl | (cases h; cases h')

instance (s : Sys) : (act : Act) → Decidable (Meets s act)
  | .create i fails =>
    have : Decidable (∀ w, s.writers.getLast? = some w → w.stage = .queued) :=
      match s.writers.getLast? with
      | some w => decidable_of_iff (w.stage = .queued) (by simp)
      | none => isTrue nofun
    inferInstanceAs (Decidable (_ ∧ _ ∧ _))
  | .write _ _ _ | .rename _ _ => inferInstanceAs (Decidable (_ → _))
  | .hand _ | .remove _ _ | .markdown _ | .drop _ | .otherTracked | .otherDropped =>
    inferInstanceAs (Decidable True)

/-- The first of two writers fails and the second gets through. -/
theorem snapshots_sound_sample : ∃ s, (persist persistBuffer sampleDir).Runs Meets s ∧
    s.Sound (sampleDir.read .file) ∧ s.inFlight = 0 ∧ s.dir.read .file = some [8, 9] := by
  have hrun : ((persist persistBuffer sampleDir).follow (fun s act => Meets s act)
      (persist persistBuffer sampleDir).start
      [.hand [7], .hand [8, 9], .create 0 false, .rename 0 false, .write 0 1 true, .drop 0,
        .create 1 false, .write 1 1 false, .write 1 5 false, .rename 1 false, .markdown 1,
        .drop 1]).map (fun s => (s.inFlight, s.dir.read .file)) = some (0, some [8, 9]) := by decide
  obtain ⟨s, hs, hend⟩ := Option.map_eq_some_iff.mp hrun
  have h : (persist persistBuffer sampleDir).Runs Meets s :=
    .follow (fun s act hc => of_decide_eq_true hc) .start hs
  exact ⟨s, h, snapshots_sound sampleDir_sound h, Prod.mk.inj hend⟩

/-- What two overlapping writers may leave: the older of two snapshots for good, and a file that is
no snapshot at all. -/
structure Lost (flow : Flow) : Prop where
  older : ∃ s, (persist flow sampleDir).Runs (fun _ _ => True) s ∧ s.inFlight = 0 ∧
    s.writers.map (·.snap) = [[7], [8, 9]] ∧ s.dir.read .file = some [7]
  torn : ∃ s, (persist flow sampleDir).Runs (fun _ _ => True) s ∧
    s.writers.map (·.snap) = [[7], [8, 9]] ∧ s.dir.read .file = some []

/-- The newer one is through before the older begins. -/
def olderLast : List Act :=
  [.hand [7], .hand [8, 9], .create 1 false, .write 1 2 false, .rename 1 false, .markdown 1, .drop 1,
    .create 0 false, .write 0 1 false, .rename 0 false, .markdown 0, .drop 0]

/-- One renames the temporary file that the other has just cut to nothing. -/
def cutBetween : List Act :=
  [.hand [7], .hand [8, 9], .create 0 false, .write 0 1 false, .create 1 false, .rename 0 false]

private theorem lost {flow : Flow}
    (holder : ((persist flow sampleDir).follow (fun _ _ => true) (persist flow sampleDir).start
      olderLast).map (fun s => (s.inFlight, s.writers.map (·.snap), s.dir.read .file)) =
        some (0, [[7], [8, 9]], some [7]))
    (htorn : ((persist flow sampleDir).follow (fun _ _ => true) (persist flow sampleDir).start
      cutBetween).map (fun s => (s.writers.map (·.snap), s.dir.read .file)) =
        some ([[7], [8, 9]], some [])) : Lost flow := by
  obtain ⟨s, hs, hend⟩ := Option.map_eq_some_iff.mp holder
  obtain ⟨s', hs', hend'⟩ := Option.map_eq_some_iff.mp htorn
  obtain ⟨hzero, hrest⟩ := Prod.mk.inj hend
  exact ⟨⟨s, .follow (fun _ _ _ => trivial) .start hs, hzero, Prod.mk.inj hrest⟩,
    ⟨s', .follow (fun _ _ _ => trivial) .start hs', Prod.mk.inj hend'⟩⟩

theorem snapshots_lost : Lost persistSessionData ∧ Lost persistBuffer :=
  ⟨lost (by decide) (by decide), lost (by decide) (by decide)⟩

end PulseNull.Persist.Snapshots
