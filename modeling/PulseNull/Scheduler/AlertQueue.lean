import PulseNull.Text.Chars
import PulseNull.Machine

/-! The alert queue and its file: pushes and drains of one daemon after another, with saves that
fail and files that do not load. -/
namespace PulseNull.Scheduler.AlertQueue

/-- One alert of a task, awaiting a consumer. -/
structure Alert where
  id : Bytes
  sourceTask : Bytes
  content : Bytes
  createdAt : Int
  targetChannel : Option Bytes
  deriving DecidableEq

/-- `alerts.json`: missing, the text of a save, or a text that does not parse. -/
inductive AlertFile where
  | missing
  | alerts (alerts : List Alert)
  | torn
  deriving DecidableEq

/-- Whether a load gets at the alerts of the file. -/
def AlertFile.loads (file : AlertFile) (readable : Bool) : Bool :=
  match file with
  | .missing => true
  | .alerts _ => readable
  | .torn => false

/-- Any failure to read or to parse starts empty. -/
def load (file : AlertFile) (readable : Bool) : List Alert :=
  match file with
  | .missing => []
  | .alerts alerts => if readable then alerts else []
  | .torn => []

/-- The file after a save: written beside it and renamed, or left as it was. -/
def save (alerts : List Alert) (saves : Bool) (file : AlertFile) : AlertFile :=
  if saves then .alerts alerts else file

/-- What the daemons did, as far as callers can tell. -/
inductive Entry where
  | pushed (alert : Alert)
  | drained (alerts : List Alert)
  deriving DecidableEq

/-- The queue in memory; the alerts a drain has taken and not yet returned; the file; what happened;
whether every save so far succeeded; and the file that the last load could not read and whether one
was replaced. -/
structure Sys where
  alerts : List Alert
  taken : Option (List Alert)
  file : AlertFile
  log : List Entry
  saved : Bool
  unread : Bool
  replaced : Bool
  deriving DecidableEq

inductive Act where
  | push (alert : Alert) (saves : Bool)
  | drain (saves : Bool)
  | returned
  | tear
  | restart (readable : Bool)
  deriving DecidableEq

/-- The queue was changed in memory; now the file. -/
def Sys.save (s : Sys) (saves : Bool) : Sys :=
  { s with
    file := AlertQueue.save s.alerts saves s.file
    saved := s.saved && saves
    replaced := s.replaced || (saves && s.unread)
    unread := s.unread && !saves }

/-- The queue is behind a lock: no push and no drain while one has not returned. A daemon can stop
anywhere, and the next one loads the file. -/
def Sys.step (s : Sys) : Act → Sys
  | .push alert saves =>
    if s.taken.isSome then s
    else { Sys.save { s with alerts := s.alerts ++ [alert] } saves with
      log := s.log ++ [.pushed alert] }
  | .drain saves =>
    if s.taken.isSome then s
    else if s.alerts = [] then { s with log := s.log ++ [.drained []] }
    else Sys.save { s with alerts := [], taken := some s.alerts } saves
  | .returned =>
    match s.taken with
    | some alerts => { s with taken := none, log := s.log ++ [.drained alerts] }
    | none => s
  | .tear => { s with file := .torn }
  | .restart readable => { s with
      alerts := load s.file readable
      taken := none
      unread := !s.file.loads readable }

def queue : Machine Sys Act := ⟨⟨[], none, .missing, [], true, false, false⟩, Sys.step⟩

/-- Pushed and not yet returned by a drain. -/
def Sys.pending (s : Sys) : List Alert := s.taken.getD [] ++ s.alerts

def pushes (log : List Entry) : List Alert :=
  log.flatMap fun
    | .pushed alert => [alert]
    | .drained _ => []

def drains (log : List Entry) : List Alert :=
  log.flatMap fun
    | .pushed _ => []
    | .drained alerts => alerts

/-- Every alert whose push returned is in a later drain or still pending; in the order of the pushes
and once each while all saves succeed; and no file that could not be read was replaced. -/
structure Sys.HandsOut (s : Sys) : Prop where
  kept : ∀ early alert late, s.log = early ++ .pushed alert :: late →
    alert ∈ drains late ∨ alert ∈ s.pending
  once : s.saved = true → pushes s.log = drains s.log ++ s.pending
  unread : s.replaced = false

/-- A daemon starts from a file that loads and holds what its predecessor had not handed out. -/
def Meets (s : Sys) : Act → Prop
  | .restart readable => s.file.loads readable = true ∧ ∀ alert ∈ s.pending, alert ∈ load s.file readable
  | _ => True

/-! The invariant. -/

structure Sys.Inv (s : Sys) : Prop where
  kept : ∀ early alert late, s.log = early ++ .pushed alert :: late →
    alert ∈ drains late ∨ alert ∈ s.pending
  once : s.saved = true → pushes s.log = drains s.log ++ s.pending
  file : s.saved = true → s.file = .alerts s.alerts ∨ s.file = .torn ∨ (s.file = .missing ∧ s.alerts = [])
  taken : ∀ alerts, s.taken = some alerts → alerts ≠ [] ∧ s.alerts = []
  unread : s.unread = false ∧ s.replaced = false

variable {s : Sys}

theorem start_inv : queue.start.Inv := by
  refine ⟨fun early alert late heq => ?_, fun _ => rfl, fun _ => .inr (.inr ⟨rfl, rfl⟩),
    nofun, rfl, rfl⟩
  simp [queue] at heq

@[simp] theorem pushes_append (a b : List Entry) : pushes (a ++ b) = pushes a ++ pushes b :=
  List.flatMap_append

@[simp] theorem drains_append (a b : List Entry) : drains (a ++ b) = drains a ++ drains b :=
  List.flatMap_append

@[simp] theorem pushes_pushed (alert : Alert) : pushes [.pushed alert] = [alert] := rfl
@[simp] theorem drains_pushed (alert : Alert) : drains [.pushed alert] = [] := rfl
@[simp] theorem pushes_drained (alerts : List Alert) : pushes [.drained alerts] = [] := by
  simp [pushes]
@[simp] theorem drains_drained (alerts : List Alert) : drains [.drained alerts] = alerts := by
  simp [drains]

/-- A log that has grown by one: the push is the new entry, or it was there before. -/
private theorem pushed_split {log early late : List Entry} {entry : Entry} {alert : Alert}
    (h : log ++ [entry] = early ++ .pushed alert :: late) :
    entry = .pushed alert ∨ ∃ rest, late = rest ++ [entry] ∧ log = early ++ .pushed alert :: rest := by
  rcases List.eq_nil_or_concat' late with rfl | ⟨rest, last, rfl⟩
  · exact .inl (List.singleton_inj.mp (List.append_inj' h rfl).2)
  · rw [← List.cons_append, ← List.append_assoc] at h
    obtain ⟨rfl, hx⟩ := List.append_inj' h rfl
    obtain rfl := List.singleton_inj.mp hx
    exact .inr ⟨rest, rfl, rfl⟩

theorem Sys.Inv.push (h : s.Inv) (alert : Alert) (saves : Bool) :
    (s.step (.push alert saves)).Inv := by
  simp only [Sys.step]
  split
  · exact h
  next hfree =>
  have hnone : s.taken = none := by simpa using hfree
  have hp : s.pending = s.alerts := by simp [Sys.pending, hnone]
  refine ⟨fun early a late heq => ?_, fun hs => ?_, fun hs => ?_, fun alerts ht => ?_, ?_⟩
  · rcases pushed_split heq with hx | ⟨rest, rfl, hlog⟩
    · cases hx
      exact .inr (by simp [Sys.pending, Sys.save])
    · rcases h.kept early a rest hlog with hd | hm
      · exact .inl (by simp [hd])
      · rw [hp] at hm
        exact .inr (by simp [Sys.pending, Sys.save, hm])
  · simp only [Sys.save, Bool.and_eq_true] at hs
    have honce := h.once hs.1
    rw [hp] at honce
    simp [Sys.pending, Sys.save, hnone, honce]
  · simp only [Sys.save, Bool.and_eq_true] at hs
    exact .inl (by simp [Sys.save, AlertQueue.save, hs.2])
  · rw [show s.taken = some alerts from ht] at hnone
    cases hnone
  · simp [Sys.save, h.unread.1, h.unread.2]

theorem Sys.Inv.drain (h : s.Inv) (saves : Bool) : (s.step (.drain saves)).Inv := by
  simp only [Sys.step]
  split
  · exact h
  next hfree =>
  have hnone : s.taken = none := by simpa using hfree
  have hp : s.pending = s.alerts := by simp [Sys.pending, hnone]
  split
  · next hempty =>
    refine ⟨fun early a late heq => ?_, fun hs => ?_, h.file, h.taken, h.unread⟩
    · rcases pushed_split heq with hx | ⟨rest, rfl, hlog⟩
      · cases hx
      · rcases h.kept early a rest hlog with hd | hm
        · exact .inl (by simp [hd])
        · exact .inr hm
    · have honce := h.once hs
      simpa [Sys.pending] using honce
  · next hfull =>
    refine ⟨fun early a late heq => ?_, fun hs => ?_, fun hs => ?_, fun alerts ht => ?_, ?_⟩
    · rcases h.kept early a late heq with hd | hm
      · exact .inl hd
      · rw [hp] at hm
        exact .inr (by simp [Sys.pending, Sys.save, hm])
    · simp only [Sys.save, Bool.and_eq_true] at hs
      have honce := h.once hs.1
      rw [hp] at honce
      simp [Sys.pending, Sys.save, honce]
    · simp only [Sys.save, Bool.and_eq_true] at hs
      exact .inl (by simp [Sys.save, AlertQueue.save, hs.2])
    · cases ht
      exact ⟨hfull, rfl⟩
    · simp [Sys.save, h.unread.1, h.unread.2]

theorem Sys.Inv.returned (h : s.Inv) : (s.step .returned).Inv := by
  simp only [Sys.step]
  split
  · next alerts ht =>
    have hempty := (h.taken alerts ht).2
    have hp : s.pending = alerts := by simp [Sys.pending, ht, hempty]
    refine ⟨fun early a late heq => ?_, fun hs => ?_, h.file, nofun, h.unread⟩
    · rcases pushed_split heq with hx | ⟨rest, rfl, hlog⟩
      · cases hx
      · rcases h.kept early a rest hlog with hd | hm
        · exact .inl (by simp [hd])
        · rw [hp] at hm
          exact .inl (by simp [hm])
    · have honce := h.once hs
      rw [hp] at honce
      simp [Sys.pending, hempty, honce]
  · exact h

theorem Sys.Inv.restart (h : s.Inv) {readable : Bool} (ok : Meets s (.restart readable)) :
    (s.step (.restart readable)).Inv := by
  obtain ⟨hloads, hheld⟩ := ok
  -- while all saves succeeded the file is the queue, and no drain was cut off
  have hsame : s.saved = true → load s.file readable = s.alerts ∧ s.taken = none := by
    intro hs
    have hload : load s.file readable = s.alerts := by
      rcases h.file hs with hf | hf | ⟨hf, hempty⟩
      · rw [hf] at hloads
        rw [hf]
        exact if_pos hloads
      · rw [hf] at hloads
        cases hloads
      · rw [hf, hempty]
        rfl
    refine ⟨hload, ?_⟩
    by_contra hsome
    obtain ⟨alerts, ht⟩ := Option.ne_none_iff_exists'.mp hsome
    obtain ⟨hne, hempty⟩ := h.taken alerts ht
    obtain ⟨a, ha⟩ := List.exists_mem_of_ne_nil alerts hne
    have hm := hheld a (by simp [Sys.pending, ht, ha])
    rw [hload, hempty] at hm
    cases hm
  refine ⟨fun early a late heq => ?_, fun hs => ?_, fun hs => ?_, nofun, ?_⟩
  · rcases h.kept early a late heq with hd | hm
    · exact .inl hd
    · exact .inr (by simpa [Sys.pending, Sys.step] using hheld a hm)
  · obtain ⟨hload, hnone⟩ := hsame hs
    have honce := h.once hs
    simpa [Sys.pending, Sys.step, hload, hnone] using honce
  · obtain ⟨hload, -⟩ := hsame hs
    rw [Sys.step, hload]
    exact h.file hs
  · exact ⟨by simp [Sys.step, hloads], h.unread.2⟩

theorem Sys.Inv.step (h : s.Inv) {act : Act} (ok : Meets s act) : (s.step act).Inv := by
  cases act with
  | push alert saves => exact h.push alert saves
  | drain saves => exact h.drain saves
  | returned => exact h.returned
  | tear => exact ⟨h.kept, h.once, fun _ => .inr (.inl rfl), h.taken, h.unread⟩
  | restart readable => exact h.restart ok

def sampleAlert (n : UInt8) : Alert := ⟨[n], Text.ascii "think", Text.ascii "look", 0, none⟩

instance (s : Sys) : (act : Act) → Decidable (Meets s act)
  | .restart _ => inferInstanceAs (Decidable (_ ∧ ∀ _ ∈ _, _))
  | .push _ _ | .drain _ | .returned | .tear => inferInstanceAs (Decidable True)

end PulseNull.Scheduler.AlertQueue
