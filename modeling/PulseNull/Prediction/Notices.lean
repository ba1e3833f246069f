import PulseNull.Prediction.Refusals

/-! Every refused marker is pending or was told before it was cleared, over every order of turns. -/
namespace PulseNull.Prediction.Refusals
open Text (ascii)
open Scheduler (MarkerCounts countPredictionMarkers)
variable {inRange : Bytes → Bool}

/-! What is stored is what is loaded. -/

private theorem pending_ofValue_toValue (p : Pending) : Pending.ofValue p.toValue = .ok p := by
  have hu (n : U64) : Json.decodeU64 (u64 n) = .ok n := rfl
  simp +decide [Pending.ofValue, Pending.toValue, Json.openMembers, Json.recordMembers, Json.visit,
    Json.Field.of, ensure, Json.required, Json.lookup, hu, Except.map, bind, Except.bind, pure,
    Except.pure]

private theorem entry_ofValue_toValue (e : Entry) : Entry.ofValue e.toValue = .ok e := by
  have hu (n : U64) : Json.decodeU64 (u64 n) = .ok n := rfl
  simp +decide [Entry.ofValue, Entry.toValue, Json.openMembers, Json.recordMembers, Json.visit,
    Json.Field.of, ensure, Json.required, Json.lookup, hu, pending_ofValue_toValue, Except.map, bind,
    Except.bind, pure, Except.pure]

private theorem mapM_entries (entries : List Entry) :
    (entries.map Entry.toValue).mapM Entry.ofValue = .ok entries := by
  induction entries with
  | nil => rfl
  | cons e entries ih =>
    rw [List.map_cons, List.mapM_cons, entry_ofValue_toValue, ih]
    rfl

private theorem decodeEntries_toValue (entries : List Entry) :
    decodeEntries (.arr (entries.map Entry.toValue)) = .ok entries := mapM_entries entries

private theorem state_ofValue_toValue (s : State) : State.ofValue s.toValue = .ok s := by
  have hu (n : U64) : Json.decodeU64 (u64 n) = .ok n := rfl
  simp +decide [State.ofValue, State.toValue, Json.openMembers, Json.recordMembers, Json.visit,
    Json.Field.of, ensure, Json.required, Json.lookup, hu, decodeEntries_toValue, Except.map, bind,
    Except.bind, pure, Except.pure]

/-- So many entries fit in the largest file read. -/
def maxEntries : ℕ := 300

private theorem entry_plain (e : Entry) : e.toValue.Plain ∧ e.toValue.room = 212 := by
  have hk : ∀ k ∈ ["id", "counts", "predict", "resolve"], ∀ c ∈ ascii k, c < 128 := by
    simp only [List.forall_mem_cons]
    refine ⟨?_, ?_, ?_, ?_, nofun⟩
    all_goals
      rw [ascii, String.toList_ofList]
      simp
  simp only [List.forall_mem_cons] at hk
  obtain ⟨k1, k2, k3, k4, _⟩ := hk
  exact ⟨⟨k1, trivial, k2, ⟨k3, trivial, k4, trivial, trivial⟩, trivial⟩, rfl⟩

private theorem entries_plain (entries : List Entry) : Json.PlainItems (entries.map Entry.toValue) ∧
    Json.roomItems (entries.map Entry.toValue) = 213 * entries.length := by
  induction entries with
  | nil => exact ⟨trivial, rfl⟩
  | cons e entries ih =>
    obtain ⟨hplain, hroom⟩ := entry_plain e
    refine ⟨⟨hplain, ih.1⟩, ?_⟩
    rw [List.map_cons, Json.roomItems, hroom, ih.2, List.length_cons]
    omega

private theorem entries_depth (entries : List Entry) :
    Json.depthItems (entries.map Entry.toValue) ≤ 2 := by
  induction entries with
  | nil => exact Nat.zero_le _
  | cons e entries ih =>
    rw [List.map_cons, Json.depthItems]
    exact max_le (le_of_eq rfl) ih

/-- A state of not too many entries is loaded as it was stored. -/
theorem load_store (inRange : Bytes → Bool) (file : Option Bytes) {s : State} (hne : s.entries ≠ [])
    (hfew : s.entries.length ≤ maxEntries) :
    ∃ content, store file s true = some content ∧ load inRange (some content) = s := by
  have hk : ∀ k ∈ ["next_id", "shown_through", "entries"], ∀ c ∈ ascii k, c < 128 := by
    simp only [List.forall_mem_cons]
    refine ⟨?_, ?_, ?_, nofun⟩
    all_goals
      rw [ascii, String.toList_ofList]
      simp
  simp only [List.forall_mem_cons] at hk
  obtain ⟨k1, k2, k3, _⟩ := hk
  obtain ⟨hplain, hroom⟩ := entries_plain s.entries
  obtain ⟨content, hprint, hfits⟩ := Json.print_fits (v := s.toValue)
    ⟨k1, trivial, k2, trivial, k3, hplain, trivial⟩
  have hdepth : s.toValue.depth ≤ Json.maxDepth := by
    have := entries_depth s.entries
    simp only [State.toValue, u64, Json.depth, Json.depthMembers, Json.maxDepth]
    omega
  have hshort : ¬ maxRefusalsBytes < content.length := by
    have h1 := hfits.length
    have h2 : s.toValue.room ≤ 213 * s.entries.length + 300 := by
      have l1 : (ascii "next_id").length = 7 := by rw [ascii, String.toList_ofList]; rfl
      have l2 : (ascii "shown_through").length = 13 := by rw [ascii, String.toList_ofList]; rfl
      have l3 : (ascii "entries").length = 7 := by rw [ascii, String.toList_ofList]; rfl
      simp only [State.toValue, u64, Json.room, Json.roomMembers, hroom, l1, l2, l3]
      omega
    unfold maxEntries at hfew
    unfold maxRefusalsBytes
    omega
  refine ⟨content, by simp [store, hne, hprint], ?_⟩
  rw [load, if_neg hshort, Text.fromUtf8Lossy_valid (Text.utf8Valid_ascii hfits.lt),
    Json.parse_print hprint hdepth, Option.map_some, state_ofValue_toValue]

/-! What each operation does to the state loaded. -/

/-- The file is missing, or holds a state with something pending. -/
def Stored (inRange : Bytes → Bool) (file : Option Bytes) : Prop :=
  file.isSome → (load inRange file).entries ≠ []

theorem load_none : load inRange none = .default := rfl

/-- After a write that lands, the state or none; after one that fails, what was there. -/
theorem load_stored (file : Option Bytes) {s : State} (hfew : s.entries.length ≤ maxEntries)
    (hf : Stored inRange file) (landed : Bool) : Stored inRange (store file s landed) ∧
      load inRange (store file s landed) =
        if landed then if s.entries = [] then .default else s else load inRange file := by
  cases landed with
  | false => exact ⟨hf, rfl⟩
  | true =>
    by_cases hne : s.entries = []
    · have hnone : store file s true = none := by simp [store, hne]
      rw [hnone, if_pos rfl, if_pos hne]
      exact ⟨nofun, rfl⟩
    · obtain ⟨content, hstore, hload⟩ := load_store inRange file hne hfew
      rw [hstore, if_pos rfl, if_neg hne]
      exact ⟨fun _ => hload ▸ hne, hload⟩

/-- The counts of entries, added up. -/
def sums (entries : List Entry) : MarkerCounts :=
  ⟨(entries.map (·.counts.predict.val)).sum, (entries.map (·.counts.resolve.val)).sum⟩

/-- Entries are numbered upwards, and what has been shown has been numbered. -/
structure State.Ok (st : State) : Prop where
  increasing : st.entries.Pairwise (·.id < ·.id)
  numbered : ∀ e ∈ st.entries, e.id ≤ st.nextId
  marked : st.shownThrough ≤ st.nextId

private theorem State.ok_default : State.default.Ok := ⟨.nil, nofun, le_refl _⟩

private theorem sums_append (a b : List Entry) :
    sums (a ++ b) = ⟨(sums a).predict + (sums b).predict, (sums a).resolve + (sums b).resolve⟩ := by
  simp [sums]

/-- What a record leaves of the entries before it. -/
structure Recorded (st st' : State) (counts : MarkerCounts) : Prop where
  ok : st'.Ok
  pending : st'.entries ≠ []
  length : st'.entries.length ≤ st.entries.length + 1
  numbered : st'.nextId.val ≤ st.nextId.val + 1
  marked : st'.shownThrough = st.shownThrough
  sums : sums st'.entries =
    ⟨(sums st.entries).predict + counts.predict, (sums st.entries).resolve + counts.resolve⟩
  shown : ∀ e ∈ st'.entries, e.id ≤ st.shownThrough → e ∈ st.entries

private theorem Pending.sums_add (p : Pending) {predict resolve : ℕ} (hp : p.predict.val + predict < 2^64)
    (hr : p.resolve.val + resolve < 2^64) : (p.add predict resolve).predict.val = p.predict.val + predict ∧
      (p.add predict resolve).resolve.val = p.resolve.val + resolve :=
  ⟨U64.saturatingAdd_val hp, U64.saturatingAdd_val hr⟩

/-- A new entry is numbered after all others. -/
private theorem State.recorded_fresh {st : State} {counts : MarkerCounts} (ok : st.Ok)
    (hnext : st.nextId.val + 1 < 2^64) (hp : counts.predict < 2^64) (hr : counts.resolve < 2^64) :
    Recorded st (State.record.fresh st counts) counts := by
  have hid : (st.nextId.saturatingAdd 1).val = st.nextId.val + 1 := U64.saturatingAdd_val hnext
  have hlt {n : U64} (h : n ≤ st.nextId) : n < st.nextId.saturatingAdd 1 := by
    rw [Fin.lt_def, hid]
    exact Nat.lt_succ_of_le h
  obtain ⟨hpredict, hresolve⟩ := Pending.sums_add .default (show _ + counts.predict < _ by simpa [Pending.default] using hp)
    (show _ + counts.resolve < _ by simpa [Pending.default] using hr)
  constructor
  · constructor
    · refine List.pairwise_append.mpr ⟨ok.increasing, List.pairwise_singleton _ _, fun e he e' he' => ?_⟩
      obtain rfl := List.mem_singleton.mp he'
      exact hlt (ok.numbered e he)
    · intro e he
      rcases List.mem_append.mp he with he | he
      · exact (hlt (ok.numbered e he)).le
      · obtain rfl := List.mem_singleton.mp he
        exact le_refl _
    · exact (hlt ok.marked).le
  · exact List.append_ne_nil_of_right_ne_nil _ (List.cons_ne_nil _ _)
  · exact List.length_append.le
  · exact hid.le
  · rfl
  · have h0 : Pending.default.predict.val = 0 ∧ Pending.default.resolve.val = 0 := ⟨rfl, rfl⟩
    rw [State.record.fresh, sums_append]
    simp [sums, hpredict, hresolve, h0]
  · intro e he hle
    rcases List.mem_append.mp he with he | he
    · exact he
    · obtain rfl := List.mem_singleton.mp he
      exact absurd (hlt ok.marked) (not_lt.mpr hle)

/-- An entry not shown yet grows. -/
private theorem State.recorded_last {st : State} {counts : MarkerCounts} {last : Entry} (ok : st.Ok)
    (hlast : st.entries.getLast? = some last) (hshown : st.shownThrough < last.id)
    (hp : last.counts.predict.val + counts.predict < 2^64)
    (hr : last.counts.resolve.val + counts.resolve < 2^64) :
    Recorded st { st with entries := st.entries.dropLast ++
      [{ last with counts := last.counts.add counts.predict counts.resolve }] } counts := by
  have hsplit : st.entries = st.entries.dropLast ++ [last] :=
    (List.dropLast_append_getLast? last hlast).symm
  obtain ⟨hpredict, hresolve⟩ := Pending.sums_add _ hp hr
  have hinc := ok.increasing
  rw [hsplit, List.pairwise_append] at hinc
  obtain ⟨hinit, -, hcross⟩ := hinc
  have hmem : last ∈ st.entries := by
    rw [hsplit]
    exact List.mem_append_right _ List.mem_cons_self
  constructor
  · constructor
    · refine List.pairwise_append.mpr ⟨hinit, List.pairwise_singleton _ _, fun e he e' he' => ?_⟩
      obtain rfl := List.mem_singleton.mp he'
      exact hcross e he last List.mem_cons_self
    · intro e he
      rcases List.mem_append.mp he with he | he
      · exact ok.numbered e (List.mem_of_mem_dropLast he)
      · obtain rfl := List.mem_singleton.mp he
        exact ok.numbered last hmem
    · exact ok.marked
  · exact List.append_ne_nil_of_right_ne_nil _ (List.cons_ne_nil _ _)
  · simp only [List.length_append, List.length_dropLast, List.length_singleton]
    omega
  · exact Nat.le_succ _
  · rfl
  · have hsums : sums st.entries = sums (st.entries.dropLast ++ [last]) := congrArg sums hsplit
    rw [hsums, sums_append, sums_append]
    simp [sums, hpredict, hresolve, Nat.add_assoc]
  · intro e he hle
    rcases List.mem_append.mp he with he | he
    · exact List.mem_of_mem_dropLast he
    · obtain rfl := List.mem_singleton.mp he
      exact absurd hshown (not_lt.mpr hle)

private theorem sums_mem {entries : List Entry} {e : Entry} (he : e ∈ entries) :
    e.counts.predict.val ≤ (sums entries).predict ∧ e.counts.resolve.val ≤ (sums entries).resolve :=
  ⟨List.single_le_sum (fun _ _ => Nat.zero_le _) _ (List.mem_map_of_mem he),
    List.single_le_sum (fun _ _ => Nat.zero_le _) _ (List.mem_map_of_mem he)⟩

theorem State.recorded {st : State} {counts : MarkerCounts} (ok : st.Ok)
    (hnext : st.nextId.val + 1 < 2^64) (hp : (sums st.entries).predict + counts.predict < 2^64)
    (hr : (sums st.entries).resolve + counts.resolve < 2^64) : Recorded st (st.record counts) counts := by
  have hfresh : Recorded st (State.record.fresh st counts) counts :=
    State.recorded_fresh ok hnext (by omega) (by omega)
  unfold State.record
  cases hlast : st.entries.getLast? with
  | none => exact hfresh
  | some last =>
    obtain ⟨h1, h2⟩ := sums_mem (List.mem_of_getLast? hlast)
    dsimp only
    split
    · next hshown => exact State.recorded_last ok hlast hshown (by omega) (by omega)
    · exact hfresh

/-! Runs. -/

/-- What is pending in the file. -/
def Sys.pending (inRange : Bytes → Bool) (s : Sys) : List Entry := (load inRange s.file).entries

/-- What has been cleared. -/
def Sys.gone (s : Sys) : List Entry := s.cleared.map Prod.snd

/-- The file is not let to grow past what is read back, a notice is marked as shown, and a notice is
acknowledged in the file it was built from, or in none. -/
def Sys.Fresh (inRange : Bytes → Bool) (s : Sys) : Act → Prop
  | .refuse rawOutput _ => (s.pending inRange).length < maxEntries ∧
      s.recorded.predict + s.recorded.resolve + (countPredictionMarkers rawOutput).predict +
        (countPredictionMarkers rawOutput).resolve < 2^64
  | .prompt _ landed =>
    landed = true ∨ (load inRange s.file).upto ≤ (load inRange s.file).shownThrough
  | .succeed turn _ => ∀ t ∈ s.turns[turn]?, t.removals = s.removals ∨ s.file = none
  | .fail _ | .restart => True

/-- Every marker counted is pending or has been cleared, once, by a turn whose notice had counted
it. -/
structure Told (inRange : Bytes → Bool) (s : Sys) : Prop where
  counted : s.recorded = sums (s.pending inRange ++ s.gone)
  shown : ∀ p ∈ s.cleared, p.2 ∈ p.1.shown ∧ render (total p.1.shown) = some p.1.notice.text

/-- The notice has marked what it counted as shown. -/
structure Covers (st : State) (t : Turn) : Prop where
  marked : t.notice.upto ≤ st.shownThrough
  shown : ∀ e ∈ st.entries, e.id ≤ t.notice.upto → e ∈ t.shown

structure Turn.Ok (inRange : Bytes → Bool) (s : Sys) (t : Turn) : Prop where
  removals : t.removals ≤ s.removals
  text : render (total t.shown) = some t.notice.text
  covers : t.removals = s.removals → Covers (load inRange s.file) t

structure Inv (inRange : Bytes → Bool) (s : Sys) : Prop where
  stored : Stored inRange s.file
  few : (s.pending inRange).length ≤ maxEntries
  ok : (load inRange s.file).Ok
  numbered : (load inRange s.file).nextId.val ≤ s.recorded.predict + s.recorded.resolve
  told : Told inRange s
  turns : ∀ t ∈ s.turns, t.Ok inRange s

private theorem Inv.new : Inv inRange (refusals inRange).start where
  stored := nofun
  few := Nat.zero_le _
  ok := State.ok_default
  numbered := Nat.zero_le _
  told := ⟨rfl, nofun⟩
  turns := nofun

/-- Turns may end without a word. -/
private theorem Inv.drop {s : Sys} (inv : Inv inRange s) {turns : List Turn} (h : turns ⊆ s.turns) :
    Inv inRange { s with turns := turns } :=
  ⟨inv.stored, inv.few, inv.ok, inv.numbered, ⟨inv.told.counted, inv.told.shown⟩,
    fun t ht => ⟨(inv.turns t (h ht)).removals, (inv.turns t (h ht)).text, (inv.turns t (h ht)).covers⟩⟩

private theorem refuse_cases (inRange : Bytes → Bool) (s : Sys) (rawOutput : Bytes) (landed : Bool) :
    s.refuse inRange rawOutput landed = s ∨
      ¬ ((countPredictionMarkers rawOutput).predict = 0 ∧ (countPredictionMarkers rawOutput).resolve = 0) ∧
      s.refuse inRange rawOutput landed = { s with
        file := store s.file ((load inRange s.file).record (countPredictionMarkers rawOutput)) true
        recorded := ⟨s.recorded.predict + (countPredictionMarkers rawOutput).predict,
          s.recorded.resolve + (countPredictionMarkers rawOutput).resolve⟩ } := by
  unfold Sys.refuse refuseMarkers record
  by_cases hzero : (countPredictionMarkers rawOutput).predict = 0 ∧
      (countPredictionMarkers rawOutput).resolve = 0
  · left
    simp [hzero]
  · cases landed with
    | false =>
      left
      simp [hzero, store]
    | true =>
      right
      refine ⟨hzero, ?_⟩
      simp only [if_neg hzero, if_true]

private theorem Inv.refuse {s : Sys} (inv : Inv inRange s) {rawOutput : Bytes} {landed : Bool}
    (h : s.Fresh inRange (.refuse rawOutput landed)) : Inv inRange (s.refuse inRange rawOutput landed) := by
  obtain ⟨hfew, hroom⟩ := h
  rcases refuse_cases inRange s rawOutput landed with he | ⟨hzero, he⟩
  · rwa [he]
  have hcounted := inv.told.counted
  rw [sums_append] at hcounted
  have hp : (sums (load inRange s.file).entries).predict ≤ s.recorded.predict := by
    rw [hcounted]
    exact Nat.le_add_right _ _
  have hr : (sums (load inRange s.file).entries).resolve ≤ s.recorded.resolve := by
    rw [hcounted]
    exact Nat.le_add_right _ _
  have hnumbered := inv.numbered
  have hrec : Recorded (load inRange s.file)
      ((load inRange s.file).record (countPredictionMarkers rawOutput))
      (countPredictionMarkers rawOutput) :=
    State.recorded inv.ok (by omega) (by omega) (by omega)
  obtain ⟨hstored, hload⟩ := load_stored s.file (hrec.length.trans hfew) inv.stored true
  rw [if_pos rfl, if_neg hrec.pending] at hload
  have hnext := hrec.numbered
  rw [he]
  constructor
  · exact hstored
  · rw [Sys.pending, hload]
    exact hrec.length.trans hfew
  · rw [hload]
    exact hrec.ok
  · rw [hload]
    dsimp only
    omega
  · refine ⟨?_, inv.told.shown⟩
    rw [Sys.pending, hload, sums_append, hrec.sums, hcounted]
    simp only [Sys.pending, Sys.gone, MarkerCounts.mk.injEq]
    omega
  · intro t ht
    obtain ⟨hremovals, htext, hcovers⟩ := inv.turns t ht
    refine ⟨hremovals, htext, fun he => ?_⟩
    obtain ⟨hmarked, hshown⟩ := hcovers he
    rw [hload]
    refine ⟨hrec.marked ▸ hmarked, fun e hmem hle => ?_⟩
    exact hshown e (hrec.shown e hmem (hle.trans hmarked)) hle

/-- A notice marks as shown everything that is pending. -/
private theorem State.le_upto {st : State} (ok : st.Ok) {e : Entry} (he : e ∈ st.entries) :
    e.id ≤ st.upto ∧ st.upto ≤ st.nextId := by
  obtain ⟨last, hlast⟩ := List.getLast?_isSome.mpr (List.ne_nil_of_mem he) |> Option.isSome_iff_exists.mp
  have hsplit : st.entries = st.entries.dropLast ++ [last] :=
    (List.dropLast_append_getLast? last hlast).symm
  have hupto : st.upto = last.id := by rw [State.upto, hlast]; rfl
  have hinc := ok.increasing
  rw [hsplit, List.pairwise_append] at hinc
  rw [hupto]
  refine ⟨?_, ok.numbered last (List.mem_of_getLast? hlast)⟩
  rw [hsplit] at he
  rcases List.mem_append.mp he with he | he
  · exact (hinc.2.2 e he last List.mem_cons_self).le
  · exact (List.mem_singleton.mp he) ▸ le_refl _

private theorem render_nil : render (total []) = none := by decide

private theorem prompt_none {s : Sys} {message : Bytes} {landed : Bool}
    (h : render (total (s.pending inRange)) = none) : s.prompt inRange message landed = s := by
  unfold Sys.pending at h
  simp [Sys.prompt, withNotice, peekNotice, h]

private theorem prompt_some {s : Sys} {message text : Bytes} {landed : Bool}
    (h : render (total (s.pending inRange)) = some text) : s.prompt inRange message landed =
      { s with
        file := if (load inRange s.file).shownThrough < (load inRange s.file).upto then
            store s.file (load inRange s.file).markShown landed
          else s.file
        turns := s.turns ++
          [⟨⟨text, (load inRange s.file).upto⟩, s.pending inRange, s.removals⟩] } := by
  unfold Sys.pending at h ⊢
  simp [Sys.prompt, withNotice, peekNotice, h]

/-- A file whose state differs by what has been shown, at most. -/
structure Marked (inRange : Bytes → Bool) (s : Sys) (file : Option Bytes) : Prop where
  stored : Stored inRange file
  ok : (load inRange file).Ok
  entries : (load inRange file).entries = s.pending inRange
  nextId : (load inRange file).nextId = (load inRange s.file).nextId
  shown : (load inRange s.file).shownThrough ≤ (load inRange file).shownThrough
  upto : (load inRange s.file).upto ≤ (load inRange file).shownThrough

private theorem Inv.marked {s : Sys} (inv : Inv inRange s) (hne : s.pending inRange ≠ []) {landed : Bool}
    (h : landed = true ∨ (load inRange s.file).upto ≤ (load inRange s.file).shownThrough) :
    Marked inRange s (if (load inRange s.file).shownThrough < (load inRange s.file).upto then
      store s.file (load inRange s.file).markShown landed
      else s.file) := by
  split
  · next hlt =>
    have hlanded : landed = true := h.resolve_right (not_le.mpr hlt)
    subst hlanded
    obtain ⟨e, he⟩ := List.exists_mem_of_ne_nil _ hne
    have hfew : (load inRange s.file).markShown.entries.length ≤ maxEntries := inv.few
    have hpending : (load inRange s.file).markShown.entries ≠ [] := hne
    obtain ⟨hstored, hload⟩ := load_stored s.file hfew inv.stored true
    rw [if_pos rfl, if_neg hpending] at hload
    refine ⟨hstored, ?_, ?_, ?_, ?_, ?_⟩ <;> rw [hload]
    · exact ⟨inv.ok.increasing, inv.ok.numbered, (State.le_upto inv.ok he).2⟩
    · rfl
    · rfl
    · exact hlt.le
    · rfl
  · next hle => exact ⟨inv.stored, inv.ok, rfl, rfl, le_refl _, not_lt.mp hle⟩

private theorem Inv.prompt {s : Sys} (inv : Inv inRange s) {message : Bytes} {landed : Bool}
    (h : s.Fresh inRange (.prompt message landed)) : Inv inRange (s.prompt inRange message landed) := by
  cases htext : render (total (s.pending inRange)) with
  | none => rwa [prompt_none htext]
  | some text =>
    have hne : s.pending inRange ≠ [] := by
      intro hnil
      rw [hnil, render_nil] at htext
      exact nomatch htext
    rw [prompt_some htext]
    have hm := inv.marked hne h
    constructor
    · exact hm.stored
    · exact (congrArg List.length hm.entries).le.trans inv.few
    · exact hm.ok
    · exact (congrArg Fin.val hm.nextId).le.trans inv.numbered
    · refine ⟨?_, inv.told.shown⟩
      have := inv.told.counted
      rwa [← hm.entries] at this
    · intro t ht
      rcases List.mem_append.mp ht with ht | ht
      · obtain ⟨hremovals, ht, hcovers⟩ := inv.turns t ht
        refine ⟨hremovals, ht, fun he => ?_⟩
        obtain ⟨hmarked, hshown⟩ := hcovers he
        refine ⟨hmarked.trans hm.shown, fun e hmem hle => hshown e ?_ hle⟩
        have : e ∈ s.pending inRange := hm.entries ▸ hmem
        exact this
      · obtain rfl := List.mem_singleton.mp ht
        exact ⟨le_refl _, htext, fun _ => ⟨hm.upto, fun e he _ => hm.entries ▸ he⟩⟩

/-- What an acknowledgement clears. -/
def Turn.clears (t : Turn) (entries : List Entry) : List Entry :=
  entries.filter fun e => !decide (t.notice.upto < e.id)

private theorem sums_partition (entries : List Entry) (p : Entry → Bool) :
    sums entries = ⟨(sums (entries.filter p)).predict + (sums (entries.filter (! p ·))).predict,
      (sums (entries.filter p)).resolve + (sums (entries.filter (! p ·))).resolve⟩ := by
  have hperm := List.filter_append_perm p entries
  have h1 := ((hperm.map (·.counts.predict.val)).sum_eq).symm
  have h2 := ((hperm.map (·.counts.resolve.val)).sum_eq).symm
  simp only [List.map_append, List.sum_append] at h1 h2
  simp only [sums, MarkerCounts.mk.injEq]
  exact ⟨h1, h2⟩

private theorem succeed_some {s : Sys} {turn : ℕ} {t : Turn} {landed : Bool} (ht : s.turns[turn]? = some t) :
    s.succeed inRange turn landed = { s with
      file := acknowledge inRange s.file t.notice landed
      turns := s.turns.eraseIdx turn
      removals := s.removals + removed s.file (acknowledge inRange s.file t.notice landed)
      cleared := s.cleared ++ if landed then (t.clears (s.pending inRange)).map fun e => (t, e) else [] } := by
  unfold Sys.succeed
  rw [ht]
  rfl

/-- The state an acknowledgement leaves: what was not shown, or none where that is nothing. -/
structure Cleared (inRange : Bytes → Bool) (s : Sys) (t : Turn) (file : Option Bytes) : Prop where
  stored : Stored inRange file
  entries : (load inRange file).entries = (s.pending inRange).filter fun e => t.notice.upto < e.id
  kept : file = none ∧ (load inRange file).entries = [] ∨
    (load inRange file).nextId = (load inRange s.file).nextId ∧
      (load inRange file).shownThrough = (load inRange s.file).shownThrough ∧ file.isSome

private theorem Inv.cleared {s : Sys} (inv : Inv inRange s) (t : Turn) :
    Cleared inRange s t (acknowledge inRange s.file t.notice true) := by
  have hfew : ((load inRange s.file).acknowledge t.notice).entries.length ≤ maxEntries :=
    (List.length_filter_le _ _).trans inv.few
  obtain ⟨hstored, hload⟩ := load_stored s.file hfew inv.stored true
  rw [if_pos rfl] at hload
  by_cases hne : ((load inRange s.file).acknowledge t.notice).entries = []
  · have hnone : acknowledge inRange s.file t.notice true = none := by simp [acknowledge, store, hne]
    exact ⟨hstored, by rw [hnone, load_none]; exact hne.symm, .inl ⟨hnone, by rw [hnone]; rfl⟩⟩
  · rw [if_neg hne] at hload
    obtain ⟨content, hstore, -⟩ := load_store inRange s.file hne hfew
    have hsome : (acknowledge inRange s.file t.notice true).isSome := by
      rw [acknowledge, hstore]
      rfl
    have hload : load inRange (acknowledge inRange s.file t.notice true) =
      (load inRange s.file).acknowledge t.notice := hload
    refine ⟨hstored, ?_, .inr ⟨?_, ?_, hsome⟩⟩ <;> rw [hload] <;> rfl

private theorem Cleared.numbered {s : Sys} {t : Turn} {file : Option Bytes} (h : Cleared inRange s t file) :
    (load inRange file).nextId.val ≤ (load inRange s.file).nextId.val := by
  rcases h.kept with ⟨hnone, -⟩ | ⟨hnext, -⟩
  · rw [hnone]
    exact Nat.zero_le _
  · rw [hnext]

private theorem Cleared.ok {s : Sys} {t : Turn} {file : Option Bytes} (h : Cleared inRange s t file)
    (inv : Inv inRange s) : (load inRange file).Ok := by
  rcases h.kept with ⟨hnone, -⟩ | ⟨hnext, hshown, -⟩
  · rw [hnone]
    exact State.ok_default
  · constructor
    · rw [h.entries]
      exact inv.ok.increasing.filter _
    · rw [h.entries, hnext]
      exact fun e he => inv.ok.numbered e (List.mem_of_mem_filter he)
    · rw [hshown, hnext]
      exact inv.ok.marked

/-- Other turns go on, unless the file has gone. -/
private theorem Cleared.covers {s : Sys} {t u : Turn} {file : Option Bytes} (h : Cleared inRange s t file)
    (hu : u.Ok inRange s) (he : u.removals = s.removals + removed s.file file) :
    Covers (load inRange file) u := by
  have hle := hu.removals
  have hstay : removed s.file file = 0 := by omega
  obtain ⟨hmarked, hshown⟩ := hu.covers (by omega)
  rcases h.kept with ⟨hnone, -⟩ | ⟨-, hthrough, -⟩
  · have hfile : s.file = none := by
      rw [hnone] at hstay
      cases hs : s.file with
      | none => rfl
      | some content => simp [removed, hs] at hstay
    rw [hfile] at hmarked hshown
    rw [hnone]
    exact ⟨hmarked, hshown⟩
  · refine ⟨hthrough ▸ hmarked, fun e he => hshown e ?_⟩
    rw [h.entries] at he
    exact List.mem_of_mem_filter he

private theorem Inv.succeed {s : Sys} (inv : Inv inRange s) {turn : ℕ} {landed : Bool}
    (h : s.Fresh inRange (.succeed turn landed)) : Inv inRange (s.succeed inRange turn landed) := by
  cases ht : s.turns[turn]? with
  | none =>
    have : s.succeed inRange turn landed = s := by unfold Sys.succeed; rw [ht]
    rwa [this]
  | some t =>
    rw [succeed_some ht]
    obtain ⟨-, htext, hcovers⟩ := inv.turns t (List.mem_of_getElem? ht)
    cases landed with
    | false =>
      have hsame : acknowledge inRange s.file t.notice false = s.file := rfl
      have hstay : removed s.file s.file = 0 := by cases s.file <;> rfl
      rw [hsame, hstay, if_neg Bool.false_ne_true, List.append_nil]
      exact inv.drop (List.eraseIdx_subset)
    | true =>
      have hc := inv.cleared t
      constructor
      · exact hc.stored
      · rw [Sys.pending, hc.entries]
        exact (List.length_filter_le _ _).trans inv.few
      · exact hc.ok inv
      · exact hc.numbered.trans inv.numbered
      · constructor
        · have hcounted := inv.told.counted
          rw [sums_append, sums_partition (s.pending inRange) fun e => decide (t.notice.upto < e.id)]
            at hcounted
          change s.recorded = sums ((load inRange (acknowledge inRange s.file t.notice true)).entries ++
            (s.cleared ++ (t.clears (s.pending inRange)).map fun e => (t, e)).map Prod.snd)
          rw [hc.entries, List.map_append, sums_append, sums_append, hcounted]
          simp only [Sys.gone, Turn.clears, List.map_map, Function.comp_def, List.map_id',
            MarkerCounts.mk.injEq]
          omega
        · intro p hp
          rcases List.mem_append.mp hp with hp | hp
          · exact inv.told.shown p hp
          · obtain ⟨e, he, rfl⟩ := List.mem_map.mp hp
            obtain ⟨he, hle⟩ := List.mem_filter.mp he
            refine ⟨?_, htext⟩
            rcases h t (by rw [ht]; rfl) with hsame | hnone
            · exact (hcovers hsame).shown e he (by simpa using hle)
            · rw [Sys.pending, hnone] at he
              exact nomatch he
      · intro u hu
        have hok := inv.turns u (List.eraseIdx_subset hu)
        exact ⟨hok.removals.trans (Nat.le_add_right _ _), hok.text, hc.covers hok⟩

private theorem Inv.step {s : Sys} {act : Act} (inv : Inv inRange s) (h : s.Fresh inRange act) :
    Inv inRange (s.step inRange act) := by
  cases act with
  | refuse rawOutput landed => exact inv.refuse h
  | prompt message landed => exact inv.prompt h
  | succeed turn landed => exact inv.succeed h
  | fail turn => exact inv.drop (List.eraseIdx_subset)
  | restart => exact inv.drop (List.nil_subset _)

/-- Over every order of turns that refuse, are told and acknowledge, every refused marker counted is
pending, or was cleared once, by a turn that had been told of it. -/
theorem markers_told {s : Sys} (h : (refusals inRange).Runs (Sys.Fresh inRange) s) : Told inRange s :=
  (h.invariant Inv.new fun _ _ inv hf => inv.step hf).told

def Sys.isFresh (inRange : Bytes → Bool) (s : Sys) : Act → Bool
  | .refuse rawOutput _ => decide ((s.pending inRange).length < maxEntries ∧
      s.recorded.predict + s.recorded.resolve + (countPredictionMarkers rawOutput).predict +
        (countPredictionMarkers rawOutput).resolve < 2^64)
  | .prompt _ landed =>
    landed || decide ((load inRange s.file).upto ≤ (load inRange s.file).shownThrough)
  | .succeed turn _ =>
    (s.turns[turn]?.map fun t => decide (t.removals = s.removals ∨ s.file = none)).getD true
  | .fail _ | .restart => true

private theorem Sys.isFresh_fresh (s : Sys) (act : Act) (h : s.isFresh inRange act = true) :
    s.Fresh inRange act := by
  cases act with
  | refuse rawOutput landed => simpa [Sys.isFresh, Sys.Fresh] using h
  | prompt message landed => simpa [Sys.isFresh, Sys.Fresh] using h
  | succeed turn landed =>
    intro t ht
    rw [Option.mem_def] at ht
    simpa [Sys.isFresh, ht] using h
  | fail turn | restart => trivial

def sampleOutput : Bytes := ascii "[PREDICT:\x7b\x7d] [RESOLVE:\x7b\x7d]"

/-- Two turns are told of one refusal and both succeed, with another refused between. -/
def sampleActs : List Act :=
  [.refuse sampleOutput true, .prompt (ascii "task") true, .prompt (ascii "intent") true,
   .refuse sampleOutput true, .succeed 1 true, .succeed 0 true]

theorem markers_told_sample : ∃ s, (refusals fun _ => true).Runs (Sys.Fresh fun _ => true) s ∧
    s.recorded = ⟨2, 2⟩ ∧ s.gone = [⟨1, ⟨1, 1⟩⟩] ∧ Told (fun _ => true) s := by
  have hrun : ((refusals fun _ => true).follow (Sys.isFresh fun _ => true) (refusals fun _ => true).start
      sampleActs).map (fun s => (s.recorded, s.gone)) = some (⟨2, 2⟩, [⟨1, ⟨1, 1⟩⟩]) := by decide +kernel
  obtain ⟨s, hf, hs⟩ := Option.map_eq_some_iff.mp hrun
  obtain ⟨hrecorded, hgone⟩ := Prod.mk.inj hs
  have hruns := Machine.Runs.start.follow Sys.isFresh_fresh hf
  exact ⟨s, hruns, hrecorded, hgone, markers_told hruns⟩

/-- An acknowledgement that comes after the file has gone clears a refusal nobody was told of: the
numbers begin again with the file. -/
theorem stale_acknowledgement_forgets :
    ∃ s, (refusals fun _ => true).Runs (fun _ _ => True) s ∧ ¬ Told (fun _ => true) s := by
  have hrun : ((refusals fun _ => true).follow (fun _ _ => true) (refusals fun _ => true).start
      [.refuse sampleOutput true, .prompt (ascii "task") true, .prompt (ascii "intent") true,
       .succeed 0 true, .refuse (sampleOutput ++ sampleOutput) true, .succeed 0 true]).map
        (fun s => decide (∀ p ∈ s.cleared, p.2 ∈ p.1.shown)) = some false := by decide +kernel
  obtain ⟨s, hf, hs⟩ := Option.map_eq_some_iff.mp hrun
  have hruns := Machine.Runs.start.follow (fun _ _ _ => trivial) hf
  exact ⟨s, hruns, fun h => (of_decide_eq_false hs) fun p hp => (h.shown p hp).1⟩

end PulseNull.Prediction.Refusals
