import PulseNull.Oneself.TornAppend

/-! A crash inside the repair of a torn tail: which prefixes of the repair's record leave a file
that can still be opened. -/
namespace PulseNull.Oneself
open Text (ascii newline Complete)
variable {env : Env}

/-- What a file classified torn is: rows, the torn bytes, and a newline if they have one. -/
structure TornTail (env : Env) (file : Bytes) (off : U64) (torn : Bytes) (needs : Bool) (seq : U64)
    (prev base : Bytes) (rows : List Accepted) : Prop where
  split : file = base ++ (if needs then torn else torn ++ [newline])
  offset : off.val = base.length
  standing : Standing env (.at file seq prev) base rows
  line : TornLine env torn
  nonempty : needs = true → torn ≠ []

/-- The part of `classify` that follows the split into a prefix and a last line. -/
private theorem torn_of_split {file pre last torn prev : Bytes} {nl needs : Bool} {off seq : U64}
    (hsplit : splitLast file = (pre, last, nl)) (hnl : newline ∉ last)
    (h : env.classify file = .ok (.torn off torn needs seq prev)) :
    last = torn ∧ nl = !needs ∧ ∃ rows, off.val = pre.length ∧
      Standing env (.at file seq prev) pre rows ∧ TornLine env torn := by
  unfold Env.classify at h
  split at h
  · simp at h
  split at h
  · simp at h
  rw [hsplit] at h
  dsimp only at h
  cases hb : (env.verifyLines pre).firstBreak with
  | some note => simp [hb] at h
  | none =>
    obtain ⟨rows, hl⟩ := verifyLines_noBreak.mp hb
    obtain ⟨hcount, _, hhead, _⟩ := hl.report
    simp only [hb, bind_eq_ok] at h
    obtain ⟨seq', hseq, h⟩ := h
    split at h
    · split at h <;> simp [pure, Except.pure] at h
    split at h
    · simp [pure, Except.pure] at h
    next hrows =>
    split at h
    · simp [pure, Except.pure] at h
    next hjson =>
    split at h
    · simp [pure, Except.pure] at h
    next hfits =>
    obtain ⟨off', hoff, h⟩ := bind_eq_ok.mp h
    simp only [pure, Except.pure, Except.ok.injEq, Class.torn.injEq] at h
    obtain ⟨rfl, rfl, hneeds, rfl, rfl⟩ := h
    have hoff : off'.val = pre.length := by
      unfold toU64 at hoff
      split at hoff
      · exact congrArg Fin.val (Except.ok.inj hoff).symm
      · simp at hoff
    refine ⟨rfl, by simp [← hneeds], rows, hoff, ⟨hl, ?_, ?_, hhead.symm⟩,
      hnl, by omega, by simpa using hjson⟩
    · rintro rfl
      exact hrows hcount
    · rw [hl.report_nextSeq] at hseq
      cases hn : nextSeq rows with
      | none => simp [hn] at hseq
      | some n =>
        rw [hn] at hseq
        exact congrArg some (Except.ok.inj hseq)

theorem classify_eq_torn {file torn prev : Bytes} {off seq : U64} {needs : Bool}
    (h : env.classify file = .ok (.torn off torn needs seq prev)) :
    ∃ base rows, TornTail env file off torn needs seq prev base rows := by
  obtain ⟨base, last, hc, hnl, hfile⟩ := Text.exists_tail file
  by_cases hlast : last = []
  · rw [hlast, List.append_nil] at hfile
    have hne : file ≠ [] := by
      rintro rfl
      simp [Env.classify] at h
    obtain ⟨pre, line, hp, hline, hbase⟩ := Text.exists_last_line (hfile ▸ hc) hne
    obtain ⟨rfl, hneeds, rows, hoff, hs, ht⟩ :=
      torn_of_split (hbase ▸ splitLast_line hp hline) hline h
    have hneeds : needs = false := by simpa using hneeds
    exact ⟨pre, rows, by simp [hneeds, hbase], hoff, hs, ht, by simp [hneeds]⟩
  · obtain ⟨rfl, hneeds, rows, hoff, hs, ht⟩ :=
      torn_of_split (hfile ▸ splitLast_torn hc hnl hlast) hnl h
    have hneeds : needs = true := by simpa using hneeds
    exact ⟨base, rows, by simp [hneeds, hfile], hoff, hs, ht, fun _ => hlast⟩

variable {file torn prev base q record : Bytes} {off seq : U64} {needs : Bool} {ts : Stamp}
  {rows : List Accepted}

/-- After the torn line, a piece of the recover row breaks the file, the whole of it does not. -/
private theorem TornTail.after_line {line : Bytes} {a : Accepted}
    (h : TornTail env file off torn needs seq prev base rows) (ha : Encoded env seq prev line a)
    (hn : Names env a base.length torn) (hq : q <+: withNewline line) (hne : q ≠ withNewline line) :
    (∀ note, env.classify (base ++ (torn ++ [newline]) ++ q) ≠ .ok (.broken note)) ↔
      q = [] ∨ q = line := by
  have hline : q <+: line := by
    rcases List.prefix_concat_iff.mp hq with he | hq
    · exact absurd he hne
    · exact hq
  by_cases h0 : q = []
  · subst h0
    obtain ⟨off', _, hc⟩ := h.standing.classify_tornLine h.line (h.offset ▸ off.isLt)
    rw [List.append_nil, hc]
    simp
  by_cases h1 : q = line
  · subst h1
    have hc := h.standing.classify_recovered h.line ha hn
    rw [← List.append_assoc] at hc
    rw [hc]
    simp
  · obtain ⟨rest, hrest⟩ := hline
    have hpiece : Torn env q := by
      refine ha.prefix_torn hrest.symm h0 ?_
      rintro rfl
      exact h1 (by simpa using hrest)
    obtain ⟨note, hc⟩ := h.standing.classify_recovering h.line hpiece
    rw [← List.append_assoc] at hc
    rw [hc]
    simp [h0, h1]

/-- A repair of a torn tail cut after `q` leaves a file that `classify` does not call broken
exactly when the cut is not inside the recover row. -/
theorem torn_repair_openable_iff (env : Env) (file torn prev record q : Bytes) (off seq : U64)
    (needs : Bool) (ts : Stamp)
    (hc : env.classify file = .ok (.torn off torn needs seq prev))
    (hplan : env.repairPlan file (.torn off torn needs seq prev) ts = .ok (some record, .recovered))
    (hq : q <+: record) (hproper : q ≠ record) :
    (∀ note, env.classify (file ++ q) ≠ .ok (.broken note)) ↔
      q = [] ∨ (needs = true ∧ q = [newline]) ∨ q ++ [newline] = record := by
  obtain ⟨base, rows, h⟩ := classify_eq_torn hc
  rcases torn_plan env ts file torn prev off seq needs with ⟨e, he⟩ | hline
  · rw [he] at hplan
    simp at hplan
  obtain ⟨line, a, ha, hn, hplan', _⟩ := hline
  rw [hplan'] at hplan
  simp only [Except.ok.injEq, Prod.mk.injEq, Option.some.injEq, and_true] at hplan
  subst hplan
  rw [h.offset] at hn
  cases needs with
  | false =>
    have hsplit := h.split
    simp only [Bool.false_eq_true, if_false] at hq hproper hsplit ⊢
    rw [hsplit, h.after_line ha hn hq hproper]
    simp [withNewline]
  | true =>
    have hsplit := h.split
    simp only [if_true] at hq hproper hsplit ⊢
    cases q with
    | nil =>
      rw [List.append_nil, hc]
      simp
    | cons c q =>
      obtain ⟨rfl, hq'⟩ := List.cons_prefix_cons.mp hq
      have hfile : file ++ newline :: q = base ++ (torn ++ [newline]) ++ q := by
        rw [hsplit]
        simp
      rw [hfile, h.after_line ha hn hq' (fun he => hproper (by rw [he]))]
      simp [withNewline]

theorem torn_repair_openable_iff_sample :
    (∀ note, sampleEnv.classify (sampleGenesis.line ++ [newline] ++ sampleTorn ++ [newline]) ≠
        .ok (.broken note)) ↔
      [newline] = ([] : Bytes) ∨ (true = true ∧ [newline] = [newline]) ∨
        [newline] ++ [newline] = newline :: withNewline sampleRecover.line :=
  torn_repair_openable_iff sampleEnv (sampleGenesis.line ++ [newline] ++ sampleTorn) sampleTorn
    sampleRecover.prev (newline :: withNewline sampleRecover.line) [newline] 160 1 true
    sampleRequest.ts (by decide +kernel) (by decide +kernel) (by decide +kernel) (by decide +kernel)

/-! The genesis row and a torn `x`, then the newline and the first byte of the recover row. -/

def cutRepair : Bytes := [newline] ++ ascii "\x7b"

theorem cut_repair_broken :
    sampleEnv.classify (sampleGenesis.line ++ [newline] ++ sampleTorn) =
        .ok (.torn 160 sampleTorn true 1 sampleRecover.prev) ∧
      sampleEnv.repairPlan (sampleGenesis.line ++ [newline] ++ sampleTorn)
        (.torn 160 sampleTorn true 1 sampleRecover.prev) sampleRequest.ts =
          .ok (some (newline :: withNewline sampleRecover.line), .recovered) ∧
      cutRepair <+: newline :: withNewline sampleRecover.line ∧
      sampleEnv.classify (sampleGenesis.line ++ [newline] ++ sampleTorn ++ cutRepair) =
        .ok (.broken ⟨2, .tornLine⟩) := by
  refine ⟨?_, ?_, ?_, ?_⟩ <;> decide +kernel

end PulseNull.Oneself
