import PulseNull.Text.Chars
import PulseNull.Machine

/-! The Discord forwarder: messages are admitted as they arrive and queued on their channel's lane,
whose worker answers them one by one. -/
namespace PulseNull.Plugins.DiscordForwarder

/-- Messages that one channel may have queued behind its turn in flight. -/
def laneDepth : ℕ := 16

structure Msg where
  id : Bytes
  channel : Bytes
  deriving DecidableEq

def silentMarkers : List Bytes :=
  [Text.ascii "[SILENT]", Text.ascii "[NO_RESPONSE]", Text.ascii "No response requested"]

def isSilent (reply : Bytes) : Bool := silentMarkers.any fun marker => marker.isPrefixOf (Text.trim reply)

/-- What `answer` waits for: the turn, the check of the ids answered, the post, and the record of
it. -/
inductive Stage where
  | turning
  | replying
  | posting
  | recording
  deriving DecidableEq

/-- A worker that is leaving still holds the end of its queue. -/
inductive Status where
  | running
  | leaving
  | gone
  deriving DecidableEq

structure Lane where
  channel : Bytes
  queue : List Msg
  hand : Option (Msg × Stage)
  status : Status
  deriving DecidableEq

/-- What became of an admitted message, as the forwarder says it. -/
inductive End where
  | posted
  | silent
  | turnFailed
  | postFailed
  | duplicate
  | laneFull
  | tooOld
  | stopping
  | abandoned
  deriving DecidableEq

/-- The ids seen and answered; the messages admitted, in the order they arrived; the senders by
channel and every lane ever spawned; whether the link was stopped, the pulse refuses turns, and the
loop that receives is over; the replies posted; and what became of the messages. -/
structure Sys where
  seen : List Bytes
  responded : List Bytes
  admitted : List Msg
  senders : Bytes → Option ℕ
  lanes : ℕ → Lane
  spawned : ℕ
  stop : Bool
  shuttingDown : Bool
  finished : Bool
  posts : List Msg
  ends : List (Msg × End)

inductive Act where
  | receive (msg : Msg) (stale : Bool)
  | stop
  | shutDown
  | leave
  | take (i : ℕ) (old : Bool)
  | turn (i : ℕ) (reply : Option Bytes)
  | check (i : ℕ)
  | post (i : ℕ) (ok : Bool)
  | record (i : ℕ)
  | panic (i : ℕ)
  | close (i : ℕ)
  | abandon

def Sys.put (s : Sys) (i : ℕ) (lane : Lane) : Sys :=
  { s with lanes := Function.update s.lanes i lane }

def Sys.say (s : Sys) (msg : Msg) (e : End) : Sys := { s with ends := s.ends ++ [(msg, e)] }

/-- A fresh lane is empty, so it takes the message. -/
def Sys.newLane (s : Sys) (msg : Msg) : Sys :=
  { s.put s.spawned ⟨msg.channel, [msg], none, .running⟩ with
    senders := Function.update s.senders msg.channel (some s.spawned)
    spawned := s.spawned + 1 }

/-- A lane whose worker is gone is closed, and a new one takes its place. -/
def Sys.queue (s : Sys) (msg : Msg) : Sys :=
  match s.senders msg.channel with
  | none => s.newLane msg
  | some i =>
    if (s.lanes i).status = .gone then s.newLane msg
    else if laneDepth ≤ (s.lanes i).queue.length then s.say msg .laneFull
    else s.put i { s.lanes i with queue := (s.lanes i).queue ++ [msg] }

/-- `admit`, and the message on its lane. -/
def Sys.receive (s : Sys) (msg : Msg) (stale : Bool) : Sys :=
  if stale then s
  else if msg.id ∈ s.seen then s
  else { s with seen := msg.id :: s.seen, admitted := s.admitted ++ [msg] }.queue msg

/-- The worker is free for its next message. -/
def Sys.take (s : Sys) (i : ℕ) (old : Bool) (msg : Msg) (rest : List Msg) : Sys :=
  if s.stop || s.shuttingDown then
    (s.put i { s.lanes i with queue := rest, status := .leaving }).say msg .stopping
  else if old then (s.put i { s.lanes i with queue := rest }).say msg .tooOld
  else s.put i { s.lanes i with queue := rest, hand := some (msg, .turning) }

def Sys.free (s : Sys) (i : ℕ) : Sys := s.put i { s.lanes i with hand := none }

def Sys.hold (s : Sys) (i : ℕ) (msg : Msg) (stage : Stage) : Sys :=
  s.put i { s.lanes i with hand := some (msg, stage) }

/-- The answer that the turn gave, or none. -/
def Sys.turn (s : Sys) (i : ℕ) (msg : Msg) : Option Bytes → Sys
  | none => (s.free i).say msg .turnFailed
  | some reply =>
    if Text.trim reply = [] || isSilent reply then (s.free i).say msg .silent
    else s.hold i msg .replying

def Sys.check (s : Sys) (i : ℕ) (msg : Msg) : Sys :=
  if msg.id ∈ s.responded then (s.free i).say msg .duplicate else s.hold i msg .posting

def Sys.post (s : Sys) (i : ℕ) (msg : Msg) (ok : Bool) : Sys :=
  if ok then { s.hold i msg .recording with posts := s.posts ++ [msg] }
  else (s.free i).say msg .postFailed

def Sys.record (s : Sys) (i : ℕ) (msg : Msg) : Sys :=
  { (s.free i).say msg .posted with responded := msg.id :: s.responded }

/-- What the lane has not answered yet. -/
def Lane.waiting (lane : Lane) : List Msg := (lane.hand.map (·.1)).toList ++ lane.queue

/-- At the grace: every worker still there is aborted, and so said. -/
def Sys.abandon (s : Sys) : Sys :=
  { s with
    lanes := fun i => { s.lanes i with queue := [], hand := none, status := .gone }
    ends := s.ends ++ ((List.range s.spawned).flatMap fun i => (s.lanes i).waiting).map (·, .abandoned) }

def Sys.step (s : Sys) : Act → Sys
  | .receive msg stale => if s.finished then s else s.receive msg stale
  | .stop => { s with stop := true }
  | .shutDown => { s with shuttingDown := true }
  | .leave => { s with finished := true }
  | .take i old =>
    match (s.lanes i).status, (s.lanes i).hand, (s.lanes i).queue with
    | .running, none, msg :: rest => s.take i old msg rest
    | _, _, _ => s
  | .turn i reply =>
    match (s.lanes i).status, (s.lanes i).hand with
    | .running, some (msg, .turning) => s.turn i msg reply
    | _, _ => s
  | .check i =>
    match (s.lanes i).status, (s.lanes i).hand with
    | .running, some (msg, .replying) => s.check i msg
    | _, _ => s
  | .post i ok =>
    match (s.lanes i).status, (s.lanes i).hand with
    | .running, some (msg, .posting) => s.post i msg ok
    | _, _ => s
  | .record i =>
    match (s.lanes i).status, (s.lanes i).hand with
    | .running, some (msg, .recording) => s.record i msg
    | _, _ => s
  -- the panic takes the message in hand with it
  | .panic i =>
    match (s.lanes i).status, (s.lanes i).hand with
    | .running, some _ => s.put i { s.lanes i with hand := none, status := .leaving }
    | _, _ => s
  -- the receiver is dropped with what is queued, or all senders were and nothing is queued
  | .close i =>
    match (s.lanes i).status, (s.lanes i).hand, (s.lanes i).queue with
    | .leaving, none, _ => s.put i { s.lanes i with queue := [], status := .gone }
    | .running, none, [] => if s.finished then s.put i { s.lanes i with status := .gone } else s
    | _, _, _ => s
  | .abandon => if s.finished then s.abandon else s

def Sys.start : Sys where
  seen := []
  responded := []
  admitted := []
  senders _ := none
  lanes _ := ⟨[], [], none, .gone⟩
  spawned := 0
  stop := false
  shuttingDown := false
  finished := false
  posts := []
  ends := []

def forwarder : Machine Sys Act := ⟨.start, Sys.step⟩

/-- Replies are posted in the order their messages arrived on the channel, and no id twice. -/
structure Sys.Orderly (s : Sys) : Prop where
  order : ∀ channel, (s.posts.filter (·.channel = channel)).Sublist
    (s.admitted.filter (·.channel = channel))
  once : (s.posts.map (·.id)).Nodup

/-- Every admitted message has an end or waits on its lane; it ends as a duplicate never, and as
posted only if it was. -/
structure Sys.Accounts (s : Sys) : Prop where
  kept : ∀ msg ∈ s.admitted, (∃ e, (msg, e) ∈ s.ends) ∨
    ∃ i, (s.lanes i).status ≠ .gone ∧ msg ∈ (s.lanes i).waiting
  said : ∀ msg e, (msg, e) ∈ s.ends → e ≠ .duplicate ∧ (e = .posted → msg ∈ s.posts)

/-- No worker panics over a message, and none leaves with messages queued. -/
def Meets (s : Sys) : Act → Prop
  | .panic i => (s.lanes i).hand = none
  | .close i => (s.lanes i).queue = []
  | _ => True

/-! Where the messages are. -/

def ofChannel (channel : Bytes) (msgs : List Msg) : List Msg := msgs.filter (·.channel = channel)

@[simp] theorem ofChannel_append (channel : Bytes) (a b : List Msg) :
    ofChannel channel (a ++ b) = ofChannel channel a ++ ofChannel channel b := List.filter_append ..

theorem ofChannel_all {channel : Bytes} {msgs : List Msg} (h : ∀ msg ∈ msgs, msg.channel = channel) :
    ofChannel channel msgs = msgs :=
  List.filter_eq_self.mpr fun msg hm => decide_eq_true (h msg hm)

theorem ofChannel_none {channel : Bytes} {msgs : List Msg} (h : ∀ msg ∈ msgs, msg.channel ≠ channel) :
    ofChannel channel msgs = [] :=
  List.filter_eq_nil_iff.mpr fun msg hm => by simpa using h msg hm

/-- What the lane has not posted yet. -/
def Lane.unposted (lane : Lane) : List Msg :=
  (match lane.hand with
    | some (msg, .turning) | some (msg, .replying) | some (msg, .posting) => [msg]
    | some (_, .recording) | none => []) ++ lane.queue

theorem Lane.unposted_waiting (lane : Lane) : lane.unposted.Sublist lane.waiting := by
  obtain ⟨_, queue, hand, _⟩ := lane
  unfold Lane.unposted Lane.waiting
  refine List.Sublist.append_right ?_ queue
  rcases hand with _ | ⟨msg, stage⟩
  · exact List.Sublist.refl _
  · cases stage with
    | turning | replying | posting => exact List.Sublist.refl _
    | recording => exact List.nil_sublist _

/-- What the channel's lane has not posted yet. -/
def Sys.pending (s : Sys) (channel : Bytes) : List Msg :=
  match s.senders channel with
  | some i => (s.lanes i).unposted
  | none => []

structure Sys.Inv (s : Sys) : Prop where
  ids : (s.admitted.map (·.id)).Nodup
  seen : ∀ msg ∈ s.admitted, msg.id ∈ s.seen
  fresh : ∀ i, s.spawned ≤ i → (s.lanes i).status = .gone
  gone : ∀ i, (s.lanes i).status = .gone → (s.lanes i).waiting = []
  owner : ∀ i, (s.lanes i).status ≠ .gone → s.senders (s.lanes i).channel = some i
  sender : ∀ channel i, s.senders channel = some i → (s.lanes i).channel = channel ∧ i < s.spawned
  belongs : ∀ i, ∀ msg ∈ (s.lanes i).waiting, msg.channel = (s.lanes i).channel
  order : ∀ channel, (ofChannel channel s.posts ++ s.pending channel).Sublist
    (ofChannel channel s.admitted)
  recording : ∀ i msg, (s.lanes i).hand = some (msg, .recording) → msg ∈ s.posts
  responded : ∀ id ∈ s.responded, ∃ msg ∈ s.posts, msg.id = id
  said : ∀ msg e, (msg, e) ∈ s.ends → e ≠ .duplicate ∧ (e = .posted → msg ∈ s.posts)

variable {s : Sys} {i : ℕ} {lane : Lane} {msg : Msg}

/-- A worker goes on: its lane holds no new message, and posts only what it had not posted. -/
structure Sys.Goes (s : Sys) (i : ℕ) (lane : Lane) (posted : List Msg) (ends : List (Msg × End)) :
    Prop where
  live : (s.lanes i).status ≠ .gone
  channel : lane.channel = (s.lanes i).channel
  unposted : (posted ++ lane.unposted).Sublist (s.lanes i).unposted
  waiting : ∀ m ∈ lane.waiting, m ∈ (s.lanes i).waiting
  gone : lane.status = .gone → lane.waiting = []
  recording : ∀ m, lane.hand = some (m, .recording) → m ∈ s.posts ++ posted
  said : ∀ m e, (m, e) ∈ ends → e ≠ .duplicate ∧ (e = .posted → m ∈ s.posts)

/-- The state after a worker has gone on. -/
def Sys.going (s : Sys) (i : ℕ) (lane : Lane) (posted : List Msg) (ends : List (Msg × End)) : Sys :=
  { s with
    lanes := Function.update s.lanes i lane
    posts := s.posts ++ posted
    ends := s.ends ++ ends }

theorem Sys.Inv.going (h : s.Inv) (i : ℕ) (lane : Lane) (posted : List Msg) (ends : List (Msg × End))
    (hg : s.Goes i lane posted ends) : (s.going i lane posted ends).Inv := by
  have hown := h.owner i hg.live
  have hlane (j : ℕ) : Function.update s.lanes i lane j = if j = i then lane else s.lanes j := by
    rw [Function.update_apply]
  refine ⟨h.ids, h.seen, fun j hj => ?_, fun j hj => ?_, fun j hj => ?_, fun channel j hj => ?_,
    fun j m hm => ?_, fun channel => ?_, fun j m hj => ?_, fun id hid => ?_, fun m e hm => ?_⟩
  · simp only [Sys.going, hlane]
    split
    · next heq => exact absurd (h.fresh i (heq ▸ hj)) hg.live
    · exact h.fresh j hj
  · simp only [Sys.going, hlane] at hj ⊢
    split at hj
    · next heq => rw [if_pos heq]; exact hg.gone hj
    · next heq => rw [if_neg heq]; exact h.gone j hj
  · simp only [Sys.going, hlane] at hj ⊢
    split at hj
    · next heq => rw [if_pos heq, heq, hg.channel]; exact hown
    · next heq => rw [if_neg heq]; exact h.owner j hj
  · simp only [Sys.going, hlane] at hj ⊢
    obtain ⟨hc, hlt⟩ := h.sender channel j hj
    refine ⟨?_, hlt⟩
    split
    · next heq => rw [hg.channel, ← heq]; exact hc
    · exact hc
  · simp only [Sys.going, hlane] at hm ⊢
    split at hm
    · next heq =>
      rw [if_pos heq, hg.channel]
      exact h.belongs i m (hg.waiting m hm)
    · next heq => rw [if_neg heq]; exact h.belongs j m hm
  · have hposted : ∀ m ∈ posted, m.channel = (s.lanes i).channel := fun m hm =>
      h.belongs i m ((s.lanes i).unposted_waiting.subset (hg.unposted.subset
        (List.mem_append_left _ hm)))
    simp only [Sys.going, ofChannel_append, Sys.pending, hlane]
    by_cases hc : channel = (s.lanes i).channel
    · -- the worker's own channel
      subst hc
      have hkept := h.order (s.lanes i).channel
      simp only [Sys.pending, hown] at hkept
      simp only [hown, if_true, ofChannel_all hposted, List.append_assoc]
      exact (List.Sublist.append_left hg.unposted _).trans hkept
    · have hnone : ofChannel channel posted = [] :=
        ofChannel_none fun m hm heq => hc (heq.symm.trans (hposted m hm))
      have hother : ∀ j, s.senders channel = some j → j ≠ i := fun j hj heq =>
        hc ((h.sender channel j hj).1.symm.trans (by rw [heq]))
      rw [hnone, List.append_nil]
      have hkept := h.order channel
      unfold Sys.pending at hkept
      cases hs : s.senders channel with
      | none => simpa only [hs] using hkept
      | some j =>
        simp only [hs] at hkept ⊢
        rw [if_neg (hother j hs)]
        exact hkept
  · simp only [Sys.going, hlane] at hj ⊢
    split at hj
    · exact hg.recording m hj
    · exact List.mem_append_left _ (h.recording j m hj)
  · obtain ⟨m, hm, rfl⟩ := h.responded id hid
    exact ⟨m, List.mem_append_left _ hm, rfl⟩
  · rcases List.mem_append.mp hm with hm | hm
    · exact ⟨(h.said m e hm).1, fun he => List.mem_append_left _ ((h.said m e hm).2 he)⟩
    · exact ⟨(hg.said m e hm).1, fun he => List.mem_append_left _ ((hg.said m e hm).2 he)⟩

theorem going_quiet (ends : List (Msg × End)) : s.going i lane [] ends =
    { s with lanes := Function.update s.lanes i lane, ends := s.ends ++ ends } := by
  simp [Sys.going]

theorem going_silent : s.going i lane [] [] = s.put i lane := by
  simp [Sys.going, Sys.put]

theorem Sys.Inv.admitted (h : s.Inv) {m : Msg} (hm : m ∈ s.posts ∨ m ∈ s.pending m.channel) :
    m ∈ s.admitted := by
  have hmem : m ∈ ofChannel m.channel s.posts ++ s.pending m.channel := by
    rcases hm with hm | hm
    · exact List.mem_append_left _ (List.mem_filter.mpr ⟨hm, by simp⟩)
    · exact List.mem_append_right _ hm
  exact List.mem_of_mem_filter ((h.order m.channel).subset hmem)

/-- A message on its lane has not been answered. -/
theorem Sys.Inv.unanswered (h : s.Inv) (hlive : (s.lanes i).status ≠ .gone)
    (hm : msg ∈ (s.lanes i).unposted) : msg.id ∉ s.responded := by
  intro hid
  obtain ⟨m, hpost, heq⟩ := h.responded msg.id hid
  have hchan := h.belongs i msg ((s.lanes i).unposted_waiting.subset hm)
  have hpending : msg ∈ s.pending msg.channel := by
    rw [Sys.pending, hchan, h.owner i hlive]
    exact hm
  have hsame : m = msg :=
    List.inj_on_of_nodup_map h.ids (h.admitted (.inl hpost)) (h.admitted (.inr hpending)) heq
  have hnodup := (h.order msg.channel).nodup ((h.ids.of_map).filter _)
  exact List.disjoint_of_nodup_append hnodup
    (List.mem_filter.mpr ⟨hsame ▸ hpost, by simp⟩) hpending

section
variable {stage : Stage} {rest : List Msg} (h : s.Inv)
include h

theorem Sys.Inv.take (hst : (s.lanes i).status = .running) (hh : (s.lanes i).hand = none)
    (hq : (s.lanes i).queue = msg :: rest) (old : Bool) : (s.take i old msg rest).Inv := by
  have hlive : (s.lanes i).status ≠ .gone := by rw [hst]; nofun
  have hsub : rest.Sublist (s.lanes i).unposted := by
    simp only [Lane.unposted, hh, hq, List.nil_append]
    exact List.sublist_cons_self msg rest
  unfold Sys.take
  split
  · have hg := h.going i { s.lanes i with queue := rest, status := .leaving } [] [(msg, .stopping)]
      ⟨hlive, rfl, by simpa [Lane.unposted, hh] using hsub, by simp +contextual [Lane.waiting, hh, hq],
        nofun, by simp [hh], by simp⟩
    rwa [going_quiet] at hg
  split
  · have hg := h.going i { s.lanes i with queue := rest } [] [(msg, .tooOld)]
      ⟨hlive, rfl, by simpa [Lane.unposted, hh] using hsub, by simp +contextual [Lane.waiting, hh, hq],
        fun hx => absurd hx hlive, by simp [hh], by simp⟩
    rwa [going_quiet] at hg
  · have hg := h.going i { s.lanes i with queue := rest, hand := some (msg, .turning) } [] []
      ⟨hlive, rfl, by simp [Lane.unposted, hh, hq], by simp +contextual [Lane.waiting, hh, hq],
        fun hx => absurd hx hlive, by simp, by simp⟩
    rwa [going_silent] at hg

variable (hst : (s.lanes i).status = .running) (hh : (s.lanes i).hand = some (msg, stage))
include hst hh

/-- The worker is done with its message. -/
theorem Sys.Inv.free (e : End) (he : e ≠ .duplicate) (hposted : e = .posted → msg ∈ s.posts) :
    ((s.free i).say msg e).Inv := by
  have hlive : (s.lanes i).status ≠ .gone := by rw [hst]; nofun
  have hg := h.going i { s.lanes i with hand := none } [] [(msg, e)]
    ⟨hlive, rfl, by simp [Lane.unposted], by simp +contextual [Lane.waiting, hh],
      fun hx => absurd hx hlive, by simp, by simpa using ⟨he, hposted⟩⟩
  rwa [going_quiet] at hg

/-- The worker goes on with its message, which it has not posted yet. -/
theorem Sys.Inv.hold (hnot : stage ≠ .recording) (next : Stage) (hnext : next ≠ .recording) :
    (s.hold i msg next).Inv := by
  have hlive : (s.lanes i).status ≠ .gone := by rw [hst]; nofun
  have hsame : ({ s.lanes i with hand := some (msg, next) } : Lane).unposted = (s.lanes i).unposted := by
    unfold Lane.unposted
    rw [hh]
    cases stage <;> cases next <;> first | rfl | exact absurd rfl hnot | exact absurd rfl hnext
  have hg := h.going i { s.lanes i with hand := some (msg, next) } [] []
    ⟨hlive, rfl, by rw [List.nil_append, hsame], by simp [Lane.waiting, hh],
      fun hx => absurd hx hlive, by simp [hnext], by simp⟩
  rwa [going_silent] at hg
end

theorem Sys.Inv.turn (h : s.Inv) (hst : (s.lanes i).status = .running)
    (hh : (s.lanes i).hand = some (msg, .turning)) (reply : Option Bytes) :
    (s.turn i msg reply).Inv := by
  unfold Sys.turn
  split
  · exact h.free hst hh _ nofun nofun
  · split
    · exact h.free hst hh _ nofun nofun
    · exact h.hold hst hh nofun _ nofun

theorem Sys.Inv.check (h : s.Inv) (hst : (s.lanes i).status = .running)
    (hh : (s.lanes i).hand = some (msg, .replying)) : (s.check i msg).Inv := by
  have hlive : (s.lanes i).status ≠ .gone := by rw [hst]; nofun
  have hun : msg.id ∉ s.responded := h.unanswered hlive (by simp [Lane.unposted, hh])
  rw [Sys.check, if_neg hun]
  exact h.hold hst hh nofun _ nofun

theorem Sys.Inv.post (h : s.Inv) (hst : (s.lanes i).status = .running)
    (hh : (s.lanes i).hand = some (msg, .posting)) (ok : Bool) : (s.post i msg ok).Inv := by
  unfold Sys.post
  split
  · have hlive : (s.lanes i).status ≠ .gone := by rw [hst]; nofun
    have hg := h.going i { s.lanes i with hand := some (msg, .recording) } [msg] []
      ⟨hlive, rfl, by simp [Lane.unposted, hh], by simp [Lane.waiting, hh],
        fun hx => absurd hx hlive, by simp, by simp⟩
    simpa [Sys.going, Sys.hold, Sys.put] using hg
  · exact h.free hst hh _ nofun nofun

theorem Sys.Inv.record (h : s.Inv) (hst : (s.lanes i).status = .running)
    (hh : (s.lanes i).hand = some (msg, .recording)) : (s.record i msg).Inv := by
  have hpost := h.recording i msg hh
  have hf := h.free hst hh .posted nofun fun _ => hpost
  refine ⟨hf.ids, hf.seen, hf.fresh, hf.gone, hf.owner, hf.sender, hf.belongs, hf.order, hf.recording,
    fun id hid => ?_, hf.said⟩
  rcases List.mem_cons.mp hid with rfl | hid
  · exact ⟨msg, hpost, rfl⟩
  · exact hf.responded id hid

theorem Sys.Inv.panic (h : s.Inv) (hst : (s.lanes i).status = .running) :
    (s.put i { s.lanes i with hand := none, status := .leaving }).Inv := by
  have hlive : (s.lanes i).status ≠ .gone := by rw [hst]; nofun
  have hg := h.going i { s.lanes i with hand := none, status := .leaving } [] []
    ⟨hlive, rfl, by simp [Lane.unposted], by simp +contextual [Lane.waiting], nofun, by simp, by simp⟩
  rwa [going_silent] at hg

theorem Sys.Inv.close (h : s.Inv) (hlive : (s.lanes i).status ≠ .gone) (hh : (s.lanes i).hand = none) :
    (s.put i { s.lanes i with queue := [], status := .gone }).Inv := by
  have hg := h.going i { s.lanes i with queue := [], status := .gone } [] []
    ⟨hlive, rfl, by simp [Lane.unposted, hh], by simp [Lane.waiting, hh],
      fun _ => by simp [Lane.waiting, hh], by simp [hh], by simp⟩
  rwa [going_silent] at hg

/-! Messages coming in. -/

section
variable (h : s.Inv) (hnew : msg.id ∉ s.seen)
include h hnew

private theorem admit_ids : ((s.admitted ++ [msg]).map (·.id)).Nodup := by
  rw [List.map_append]
  refine h.ids.append (List.nodup_singleton _) fun id hid hm => ?_
  obtain ⟨m, hma, rfl⟩ := List.mem_map.mp hid
  rw [List.map_singleton, List.mem_singleton] at hm
  exact hnew (hm ▸ h.seen m hma)

omit hnew in
private theorem admit_seen : ∀ m ∈ s.admitted ++ [msg], m.id ∈ msg.id :: s.seen := by
  intro m hm
  rcases List.mem_append.mp hm with hm | hm
  · exact List.mem_cons_of_mem _ (h.seen m hm)
  · rw [List.mem_singleton.mp hm]
    exact List.mem_cons_self

omit h hnew in
private theorem admit_order {channel : Bytes} {msgs : List Msg}
    (ho : msgs.Sublist (ofChannel channel s.admitted)) :
    msgs.Sublist (ofChannel channel (s.admitted ++ [msg])) := by
  rw [ofChannel_append]
  exact ho.trans (List.sublist_append_left _ _)

theorem Sys.Inv.full :
    (Sys.say { s with seen := msg.id :: s.seen, admitted := s.admitted ++ [msg] } msg .laneFull).Inv := by
  refine ⟨admit_ids h hnew, admit_seen h, h.fresh, h.gone, h.owner, h.sender, h.belongs,
    fun channel => admit_order (h.order channel), h.recording, h.responded, fun m e hm => ?_⟩
  rcases List.mem_append.mp hm with hm | hm
  · exact h.said m e hm
  · obtain ⟨rfl, rfl⟩ := Prod.mk.inj (List.mem_singleton.mp hm)
    exact ⟨nofun, nofun⟩

theorem Sys.Inv.push (hi : s.senders msg.channel = some i) (hlive : (s.lanes i).status ≠ .gone) :
    (Sys.put { s with seen := msg.id :: s.seen, admitted := s.admitted ++ [msg] } i
      { s.lanes i with queue := (s.lanes i).queue ++ [msg] }).Inv := by
  have hlane (j : ℕ) : Function.update s.lanes i { s.lanes i with queue := (s.lanes i).queue ++ [msg] } j =
      if j = i then { s.lanes i with queue := (s.lanes i).queue ++ [msg] } else s.lanes j := by
    rw [Function.update_apply]
  refine ⟨admit_ids h hnew, admit_seen h, fun j hj => ?_, fun j hj => ?_, fun j hj => ?_,
    fun channel j hj => ?_, fun j m hm => ?_, fun channel => ?_, fun j m hj => ?_, h.responded, h.said⟩
  · simp only [Sys.put, hlane]
    split
    · next heq => exact absurd (h.fresh i (heq ▸ hj)) hlive
    · exact h.fresh j hj
  · simp only [Sys.put, hlane] at hj ⊢
    split at hj
    · exact absurd hj hlive
    · next heq => rw [if_neg heq]; exact h.gone j hj
  · simp only [Sys.put, hlane] at hj ⊢
    split at hj
    · next heq => rw [if_pos heq, heq]; exact h.owner i hlive
    · next heq => rw [if_neg heq]; exact h.owner j hj
  · simp only [Sys.put, hlane] at hj ⊢
    obtain ⟨hc, hlt⟩ := h.sender channel j hj
    refine ⟨?_, hlt⟩
    split
    · next heq => exact heq ▸ hc
    · exact hc
  · simp only [Sys.put, hlane] at hm ⊢
    split at hm
    · next heq =>
      rw [if_pos heq]
      simp only [Lane.waiting, ← List.append_assoc] at hm
      rcases List.mem_append.mp hm with hm | hm
      · exact h.belongs i m hm
      · rw [List.mem_singleton.mp hm]
        exact (h.sender _ i hi).1.symm
    · next heq => rw [if_neg heq]; exact h.belongs j m hm
  · simp only [Sys.put, Sys.pending, hlane]
    have hkept := h.order channel
    by_cases hc : channel = msg.channel
    · subst hc
      simp only [Sys.pending, hi] at hkept
      have hown : ofChannel msg.channel [msg] = [msg] := by simp [ofChannel]
      simp only [hi, if_true, ofChannel_append, hown, Lane.unposted, ← List.append_assoc]
      simp only [Lane.unposted, ← List.append_assoc] at hkept
      exact hkept.append_right _
    · refine admit_order ?_
      unfold Sys.pending at hkept
      cases hs : s.senders channel with
      | none => simpa only [hs] using hkept
      | some j =>
        simp only [hs] at hkept ⊢
        have hne : j ≠ i := fun heq =>
          hc ((h.sender channel j hs).1.symm.trans (heq ▸ (h.sender _ i hi).1))
        rwa [if_neg hne]
  · simp only [Sys.put, hlane] at hj
    split at hj
    · exact h.recording i m hj
    · exact h.recording j m hj

/-- A new lane, when the channel has none whose worker is there. -/
theorem Sys.Inv.newLane (hgone : ∀ j, s.senders msg.channel = some j → (s.lanes j).status = .gone) :
    (Sys.newLane { s with seen := msg.id :: s.seen, admitted := s.admitted ++ [msg] } msg).Inv := by
  have hlane (j : ℕ) : Function.update s.lanes s.spawned ⟨msg.channel, [msg], none, .running⟩ j =
      if j = s.spawned then ⟨msg.channel, [msg], none, .running⟩ else s.lanes j := by
    rw [Function.update_apply]
  have hsender (c : Bytes) : Function.update s.senders msg.channel (some s.spawned) c =
      if c = msg.channel then some s.spawned else s.senders c := by
    rw [Function.update_apply]
  refine ⟨admit_ids h hnew, admit_seen h, fun j hj => ?_, fun j hj => ?_, fun j hj => ?_,
    fun channel j hj => ?_, fun j m hm => ?_, fun channel => ?_, fun j m hj => ?_, h.responded, h.said⟩
  · simp only [Sys.newLane, Sys.put, hlane] at hj ⊢
    rw [if_neg (by omega)]
    exact h.fresh j (by omega)
  · simp only [Sys.newLane, Sys.put, hlane] at hj ⊢
    split at hj
    · cases hj
    · next heq => rw [if_neg heq]; exact h.gone j hj
  · simp only [Sys.newLane, Sys.put, hlane, hsender] at hj ⊢
    split at hj
    · next heq => rw [if_pos heq, if_pos rfl, heq]
    · next heq =>
      rw [if_neg heq]
      have hown := h.owner j hj
      have hc : (s.lanes j).channel ≠ msg.channel := fun hc => hj (hgone j (hc ▸ hown))
      rw [if_neg hc]
      exact hown
  · simp only [Sys.newLane, Sys.put, hlane, hsender] at hj ⊢
    split at hj
    · next heq =>
      obtain rfl := Option.some.inj hj
      rw [if_pos rfl]
      exact ⟨heq.symm, by omega⟩
    · obtain ⟨hc, hlt⟩ := h.sender channel j hj
      rw [if_neg (by omega)]
      exact ⟨hc, by omega⟩
  · simp only [Sys.newLane, Sys.put, hlane] at hm ⊢
    split at hm
    · next heq =>
      rw [if_pos heq]
      exact congrArg Msg.channel (by simpa [Lane.waiting] using hm)
    · next heq => rw [if_neg heq]; exact h.belongs j m hm
  · simp only [Sys.newLane, Sys.put, Sys.pending, hlane, hsender]
    have hkept := h.order channel
    by_cases hc : channel = msg.channel
    · subst hc
      have hown : ofChannel msg.channel [msg] = [msg] := by simp [ofChannel]
      simp only [if_true, ofChannel_append, hown, Lane.unposted, List.nil_append]
      exact ((List.sublist_append_left _ _).trans hkept).append_right _
    · refine admit_order ?_
      rw [if_neg hc]
      unfold Sys.pending at hkept
      cases hs : s.senders channel with
      | none => simpa only [hs] using hkept
      | some j =>
        simp only [hs] at hkept ⊢
        have hlt := (h.sender channel j hs).2
        rwa [if_neg (by omega)]
  · simp only [Sys.newLane, Sys.put, hlane] at hj
    split at hj
    · cases hj
    · exact h.recording j m hj
end

theorem Sys.Inv.receive (h : s.Inv) (msg : Msg) (stale : Bool) : (s.receive msg stale).Inv := by
  unfold Sys.receive
  split
  · exact h
  split
  · exact h
  next hnew =>
  unfold Sys.queue
  split
  · next hnone => exact h.newLane hnew fun j hj => nomatch hnone.symm.trans hj
  · next i hi =>
    split
    · next hgone =>
      refine h.newLane hnew fun j hj => ?_
      obtain rfl := Option.some.inj (hi.symm.trans hj)
      exact hgone
    · next hlive =>
      split
      · exact h.full hnew
      · exact h.push hnew hi hlive

theorem Sys.Inv.abandon (h : s.Inv) : s.abandon.Inv := by
  have hempty (j : ℕ) : (s.abandon.lanes j).waiting = [] := rfl
  refine ⟨h.ids, h.seen, fun _ _ => rfl, fun _ _ => rfl, fun j hj => absurd rfl hj, h.sender,
    fun j m hm => (by rw [hempty] at hm; cases hm), fun channel => ?_, nofun, h.responded,
    fun m e hm => ?_⟩
  · have hnone : s.abandon.pending channel = [] := by
      unfold Sys.pending
      split <;> rfl
    rw [hnone, List.append_nil]
    exact (List.sublist_append_left _ _).trans (h.order channel)
  · rcases List.mem_append.mp hm with hm | hm
    · exact h.said m e hm
    · obtain ⟨m', -, heq⟩ := List.mem_map.mp hm
      obtain ⟨-, rfl⟩ := Prod.mk.inj heq
      exact ⟨nofun, nofun⟩

theorem Sys.Inv.step (h : s.Inv) (act : Act) : (s.step act).Inv := by
  cases act with
  | receive msg stale =>
    simp only [Sys.step]
    split
    · exact h
    · exact h.receive msg stale
  | stop => exact ⟨h.ids, h.seen, h.fresh, h.gone, h.owner, h.sender, h.belongs, h.order, h.recording, h.responded, h.said⟩
  | shutDown => exact ⟨h.ids, h.seen, h.fresh, h.gone, h.owner, h.sender, h.belongs, h.order, h.recording, h.responded, h.said⟩
  | leave => exact ⟨h.ids, h.seen, h.fresh, h.gone, h.owner, h.sender, h.belongs, h.order, h.recording, h.responded, h.said⟩
  | take i old =>
    simp only [Sys.step]
    split
    · next hst hh hq => exact h.take hst hh hq old
    · exact h
  | turn i reply =>
    simp only [Sys.step]
    split
    · next hst hh => exact h.turn hst hh reply
    · exact h
  | check i =>
    simp only [Sys.step]
    split
    · next hst hh => exact h.check hst hh
    · exact h
  | post i ok =>
    simp only [Sys.step]
    split
    · next hst hh => exact h.post hst hh ok
    · exact h
  | record i =>
    simp only [Sys.step]
    split
    · next hst hh => exact h.record hst hh
    · exact h
  | panic i =>
    simp only [Sys.step]
    split
    · next hst hh => exact h.panic hst
    · exact h
  | close i =>
    simp only [Sys.step]
    split
    · next hst hh => exact h.close (by rw [hst]; nofun) hh
    · next hst hh hq =>
      split
      · have hc := h.close (by rw [hst]; nofun) hh
        rwa [← hq] at hc
      · exact h
    · exact h
  | abandon =>
    simp only [Sys.step]
    split
    · exact h.abandon
    · exact h

/-! No message is lost. -/

def Sys.Kept (s : Sys) : Prop :=
  ∀ msg ∈ s.admitted, (∃ e, (msg, e) ∈ s.ends) ∨
    ∃ i, (s.lanes i).status ≠ .gone ∧ msg ∈ (s.lanes i).waiting

/-- A worker goes on; what its lane no longer holds has an end. -/
theorem Sys.Kept.worker (h : s.Kept) {s' : Sys} {ends : List (Msg × End)}
    (ha : s'.admitted = s.admitted) (hl : s'.lanes = Function.update s.lanes i lane)
    (he : s'.ends = s.ends ++ ends)
    (hk : ∀ m ∈ (s.lanes i).waiting, (lane.status ≠ .gone ∧ m ∈ lane.waiting) ∨ ∃ e, (m, e) ∈ ends) :
    s'.Kept := by
  intro m hm
  rw [hl, he]
  rcases h m (ha ▸ hm) with ⟨e, hx⟩ | ⟨j, hlive, hw⟩
  · exact .inl ⟨e, List.mem_append_left _ hx⟩
  by_cases heq : j = i
  · rcases hk m (heq ▸ hw) with hkept | ⟨e, hx⟩
    · exact .inr ⟨i, by rwa [Function.update_self]⟩
    · exact .inl ⟨e, List.mem_append_right _ hx⟩
  · exact .inr ⟨j, by rw [Function.update_of_ne heq]; exact ⟨hlive, hw⟩⟩

section
variable (h : s.Kept)
include h

theorem Sys.Kept.take {rest : List Msg} (hst : (s.lanes i).status = .running)
    (hh : (s.lanes i).hand = none) (hq : (s.lanes i).queue = msg :: rest) (old : Bool) :
    (s.take i old msg rest).Kept := by
  have hlive : (s.lanes i).status ≠ .gone := by rw [hst]; nofun
  have hwait : ∀ m ∈ (s.lanes i).waiting, m = msg ∨ m ∈ rest := by
    simp [Lane.waiting, hh, hq]
  unfold Sys.take
  split
  · refine h.worker rfl rfl rfl fun m hm => ?_
    rcases hwait m hm with rfl | hr
    · exact .inr ⟨_, List.mem_singleton_self _⟩
    · exact .inl ⟨nofun, List.mem_append_right _ hr⟩
  split
  · refine h.worker rfl rfl rfl fun m hm => ?_
    rcases hwait m hm with rfl | hr
    · exact .inr ⟨_, List.mem_singleton_self _⟩
    · exact .inl ⟨hlive, List.mem_append_right _ hr⟩
  · refine h.worker rfl rfl (List.append_nil _).symm fun m hm => .inl ⟨hlive, ?_⟩
    simpa [Lane.waiting] using hwait m hm

variable {stage : Stage} (hst : (s.lanes i).status = .running)
  (hh : (s.lanes i).hand = some (msg, stage))
include hst hh

theorem Sys.Kept.free (e : End) : ((s.free i).say msg e).Kept := by
  have hlive : (s.lanes i).status ≠ .gone := by rw [hst]; nofun
  refine h.worker rfl rfl rfl fun m hm => ?_
  have hw : m = msg ∨ m ∈ (s.lanes i).queue := by simpa [Lane.waiting, hh] using hm
  rcases hw with rfl | hq
  · exact .inr ⟨e, List.mem_singleton_self _⟩
  · exact .inl ⟨hlive, List.mem_append_right _ hq⟩

theorem Sys.Kept.hold (next : Stage) : (s.hold i msg next).Kept := by
  have hlive : (s.lanes i).status ≠ .gone := by rw [hst]; nofun
  refine h.worker rfl rfl (List.append_nil _).symm fun m hm => .inl ⟨hlive, ?_⟩
  simpa [Lane.waiting, hh] using hm
end

theorem Sys.Kept.receive (h : s.Kept) (hi : s.Inv) (msg : Msg) (stale : Bool) :
    (s.receive msg stale).Kept := by
  unfold Sys.receive
  split
  · exact h
  split
  · exact h
  have hold (m : Msg) (hm : m ∈ s.admitted ++ [msg]) : m = msg ∨ m ∈ s.admitted := by
    simpa [or_comm] using hm
  have hnewLane (hgone : ∀ j, s.senders msg.channel = some j → (s.lanes j).status = .gone) :
      (Sys.newLane { s with seen := msg.id :: s.seen, admitted := s.admitted ++ [msg] } msg).Kept := by
    intro m hm
    rcases hold m hm with rfl | hm
    · exact .inr ⟨s.spawned, by simp [Sys.newLane, Sys.put, Lane.waiting]⟩
    · rcases h m hm with hx | ⟨j, hlive, hw⟩
      · exact .inl hx
      · have hne : j ≠ s.spawned := fun heq => hlive (hi.fresh j heq.ge)
        exact .inr ⟨j, by simpa [Sys.newLane, Sys.put, Function.update_of_ne hne] using ⟨hlive, hw⟩⟩
  unfold Sys.queue
  split
  · next hnone => exact hnewLane fun j hj => nomatch hnone.symm.trans hj
  · next i hsend =>
    split
    · next hgone =>
      refine hnewLane fun j hj => ?_
      obtain rfl := Option.some.inj (hsend.symm.trans hj)
      exact hgone
    · next hlive =>
      split
      · intro m hm
        rcases hold m hm with rfl | hm
        · exact .inl ⟨.laneFull, List.mem_append_right _ (List.mem_singleton_self _)⟩
        · exact (h m hm).imp_left fun ⟨e, hx⟩ => ⟨e, List.mem_append_left _ hx⟩
      · intro m hm
        rcases hold m hm with rfl | hm
        · exact .inr ⟨i, by simpa [Sys.put, Lane.waiting] using hlive⟩
        · rcases h m hm with hx | ⟨j, hl, hw⟩
          · exact .inl hx
          · by_cases heq : j = i
            · refine .inr ⟨i, ?_⟩
              simp only [Sys.put, Function.update_self, Lane.waiting, ← List.append_assoc]
              exact ⟨hlive, List.mem_append_left _ (heq ▸ hw)⟩
            · exact .inr ⟨j, by simpa [Sys.put, Function.update_of_ne heq] using ⟨hl, hw⟩⟩

theorem Sys.Kept.abandon (h : s.Kept) (hi : s.Inv) : s.abandon.Kept := by
  intro m hm
  rcases h m hm with ⟨e, hx⟩ | ⟨j, hlive, hw⟩
  · exact .inl ⟨e, List.mem_append_left _ hx⟩
  · have hlt : j < s.spawned := by
      by_contra hge
      exact hlive (hi.fresh j (not_lt.mp hge))
    refine .inl ⟨.abandoned, List.mem_append_right _ (List.mem_map.mpr ⟨m, ?_, rfl⟩)⟩
    exact List.mem_flatMap.mpr ⟨j, List.mem_range.mpr hlt, hw⟩

theorem Sys.Kept.step (h : s.Kept) (hi : s.Inv) {act : Act} (ok : Meets s act) : (s.step act).Kept := by
  cases act with
  | receive msg stale =>
    simp only [Sys.step]
    split
    · exact h
    · exact h.receive hi msg stale
  | stop | shutDown | leave => exact h
  | take i old =>
    simp only [Sys.step]
    split
    · next hst hh hq => exact h.take hst hh hq old
    · exact h
  | turn i reply =>
    simp only [Sys.step]
    split
    · next hst hh =>
      unfold Sys.turn
      split
      · exact h.free hst hh _
      · split
        · exact h.free hst hh _
        · exact h.hold hst hh _
    · exact h
  | check i =>
    simp only [Sys.step]
    split
    · next hst hh =>
      unfold Sys.check
      split
      · exact h.free hst hh _
      · exact h.hold hst hh _
    · exact h
  | post i ok =>
    simp only [Sys.step]
    split
    · next hst hh =>
      unfold Sys.post
      split
      · exact h.hold hst hh _
      · exact h.free hst hh _
    · exact h
  | record i =>
    simp only [Sys.step]
    split
    · next hst hh => exact h.free hst hh _
    · exact h
  | panic i =>
    simp only [Sys.step]
    split
    · next hst hh => exact nomatch hh.symm.trans ok
    · exact h
  | close i =>
    have hnone (hh : (s.lanes i).hand = none) : (s.lanes i).waiting = [] := by
      rw [Lane.waiting, hh, show (s.lanes i).queue = [] from ok]
      rfl
    simp only [Sys.step]
    split
    · next hst hh =>
      exact h.worker rfl rfl (List.append_nil _).symm fun m hm => by rw [hnone hh] at hm; cases hm
    · next hst hh hq =>
      split
      · exact h.worker rfl rfl (List.append_nil _).symm fun m hm => by rw [hnone hh] at hm; cases hm
      · exact h
    · exact h
  | abandon =>
    simp only [Sys.step]
    split
    · exact h.abandon hi
    · exact h

/-- In every run, whatever fails, panics or stops, replies keep the order of their messages and no
message is answered twice. -/
theorem replies_in_order (h : forwarder.Runs (fun _ _ => True) s) : s.Inv ∧ s.Orderly := by
  have hinv : s.Inv := h.invariant ?_ fun _ act hs _ => hs.step act
  · refine ⟨hinv, fun channel => ?_, ?_⟩
    · exact (List.sublist_append_left _ _).trans (hinv.order channel)
    · -- a message is posted at most as often as it was admitted
      have hsub : ∀ msg ∈ s.posts, msg ∈ s.admitted := fun msg hm => hinv.admitted (.inl hm)
      have hnodup : s.posts.Nodup := by
        refine List.nodup_iff_count_le_one.mpr fun msg => ?_
        have hcount (msgs : List Msg) : (ofChannel msg.channel msgs).count msg = msgs.count msg :=
          List.count_filter (by simp)
        have hle := ((List.sublist_append_left _ _).trans (hinv.order msg.channel)).count_le msg
        rw [hcount, hcount] at hle
        exact hle.trans (List.nodup_iff_count_le_one.mp hinv.ids.of_map msg)
      exact hnodup.map_on fun a ha b hb heq =>
        List.inj_on_of_nodup_map hinv.ids (hsub a ha) (hsub b hb) heq
  · exact ⟨.nil, nofun, fun _ _ => rfl, fun _ _ => rfl, fun _ hj => absurd rfl hj, nofun, nofun,
      fun _ => List.Sublist.refl _, nofun, nofun, nofun⟩

/-- While no worker panics and none leaves with messages queued, every admitted message ends as
said or still waits. -/
theorem forwarder_sound (h : forwarder.Runs Meets s) : s.Orderly ∧ s.Accounts := by
  obtain ⟨hinv, hord⟩ := replies_in_order (h.mono fun _ _ _ => trivial)
  have hboth : s.Inv ∧ s.Kept := by
    refine h.invariant (I := fun s => s.Inv ∧ s.Kept) ⟨?_, nofun⟩ fun _ act hs ok =>
      ⟨hs.1.step act, hs.2.step hs.1 ok⟩
    exact (replies_in_order .start).1
  exact ⟨hord, hboth.2, hinv.said⟩

/-! A sample channel. -/

def sampleMsg (n : UInt8) : Msg := ⟨[n], Text.ascii "general"⟩

instance (s : Sys) : (act : Act) → Decidable (Meets s act)
  | .panic _ => inferInstanceAs (Decidable (_ = _))
  | .close _ => inferInstanceAs (Decidable (_ = _))
  | .receive _ _ | .stop | .shutDown | .leave | .take _ _ | .turn _ _ | .check _ | .post _ _ | .record _
  | .abandon => inferInstanceAs (Decidable True)

/-- A worker's way through one message that is answered. -/
def answered (i : ℕ) : List Act :=
  [.take i false, .turn i (some (Text.ascii "hi")), .check i, .post i true, .record i]

/-- A duplicate is not answered again, and a stop lets the turn in flight finish. -/
theorem forwarder_sound_sample : ∃ s, forwarder.Runs Meets s ∧ (s.Orderly ∧ s.Accounts) ∧
    s.ends = [(sampleMsg 1, .posted), (sampleMsg 2, .posted), (sampleMsg 3, .stopping)] ∧
    (s.lanes 0).status = .gone := by
  have hrun : (forwarder.follow (fun s act => Meets s act) forwarder.start
      ([.receive (sampleMsg 1) false, .receive (sampleMsg 1) false, .receive (sampleMsg 2) false] ++
        answered 0 ++ [.take 0 false, .receive (sampleMsg 3) false, .stop, .leave,
          .turn 0 (some (Text.ascii "hi")), .check 0, .post 0 true, .record 0, .take 0 false,
          .close 0])).map (fun s => (s.ends, (s.lanes 0).status)) =
      some ([(sampleMsg 1, .posted), (sampleMsg 2, .posted), (sampleMsg 3, .stopping)], .gone) := by
    decide
  obtain ⟨s, hs, hend⟩ := Option.map_eq_some_iff.mp hrun
  have h : forwarder.Runs Meets s := .follow (fun s act hc => of_decide_eq_true hc) .start hs
  exact ⟨s, h, forwarder_sound h, Prod.mk.inj hend⟩

/-- With all lanes gone, a message without an end is lost. -/
private theorem vanished (msg : Msg) (h : forwarder.Runs (fun _ _ => True) s) (hone : s.spawned = 1)
    (hgone : (s.lanes 0).status = .gone) (hm : msg ∈ s.admitted) (hno : msg ∉ s.ends.map (·.1)) :
    ¬ s.Accounts := by
  intro hacc
  rcases hacc.kept msg hm with ⟨e, hx⟩ | ⟨i, hlive, -⟩
  · exact hno (List.mem_map.mpr ⟨_, hx, rfl⟩)
  · refine hlive ?_
    cases i with
    | zero => exact hgone
    | succ i => exact (replies_in_order h).1.fresh _ (by omega)

/-- At a stop only the first of the queued messages is named, and a panic names none. -/
theorem messages_vanish :
    (∃ s, forwarder.Runs (fun _ _ => True) s ∧ s.admitted = [sampleMsg 1, sampleMsg 2, sampleMsg 3] ∧
      s.ends = [(sampleMsg 1, .posted), (sampleMsg 2, .stopping)] ∧ ¬ s.Accounts) ∧
    ∃ s, forwarder.Runs (fun _ _ => True) s ∧ s.admitted = [sampleMsg 1] ∧ s.ends = [] ∧
      ¬ s.Accounts := by
  constructor
  · have hrun : (forwarder.follow (fun _ _ => true) forwarder.start
        ([.receive (sampleMsg 1) false, .receive (sampleMsg 2) false, .receive (sampleMsg 3) false] ++
          answered 0 ++ [.stop, .leave, .take 0 false, .close 0])).map
        (fun s => (s.admitted, s.ends, s.spawned, (s.lanes 0).status)) =
        some ([sampleMsg 1, sampleMsg 2, sampleMsg 3],
          [(sampleMsg 1, .posted), (sampleMsg 2, .stopping)], 1, .gone) := by decide
    obtain ⟨s, hs, hend⟩ := Option.map_eq_some_iff.mp hrun
    simp only [Prod.mk.injEq] at hend
    obtain ⟨hadm, hends, hone, hgone⟩ := hend
    have h : forwarder.Runs (fun _ _ => True) s := .follow (fun _ _ _ => trivial) .start hs
    refine ⟨s, h, hadm, hends, vanished (sampleMsg 3) h hone hgone ?_ ?_⟩
    · rw [hadm]
      decide
    · rw [hends]
      decide
  · have hrun : (forwarder.follow (fun _ _ => true) forwarder.start
        [.receive (sampleMsg 1) false, .take 0 false, .panic 0, .close 0]).map
        (fun s => (s.admitted, s.ends, s.spawned, (s.lanes 0).status)) =
        some ([sampleMsg 1], [], 1, .gone) := by decide
    obtain ⟨s, hs, hend⟩ := Option.map_eq_some_iff.mp hrun
    simp only [Prod.mk.injEq] at hend
    obtain ⟨hadm, hends, hone, hgone⟩ := hend
    have h : forwarder.Runs (fun _ _ => True) s := .follow (fun _ _ _ => trivial) .start hs
    refine ⟨s, h, hadm, hends, vanished (sampleMsg 1) h hone hgone ?_ ?_⟩
    · rw [hadm]
      decide
    · rw [hends]
      decide

end PulseNull.Plugins.DiscordForwarder
