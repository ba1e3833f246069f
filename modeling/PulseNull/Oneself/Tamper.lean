import PulseNull.Oneself.Ledger

/-! A verified file is determined by the `(seq, head)` of its last row. -/
namespace PulseNull.Oneself
open Text (newline)
variable {env : Env}

/-- What is hashed while a file is verified: its row lines and its torn lines. -/
def hashedStrings (buf : Bytes) : List Bytes := (Text.lines buf).map Text.Line.bytes

private theorem hashedStrings_snoc {buf line : Bytes} {rows : List Accepted}
    (h : Ledger env buf rows) (hl : newline ∉ line) :
    hashedStrings (buf ++ (line ++ [newline])) = hashedStrings buf ++ [line] := by
  rw [hashedStrings, Text.lines_append_line h.complete hl, List.map_append]
  rfl

private theorem hashedStrings_recovered {buf torn line : Bytes} {rows : List Accepted}
    (h : Ledger env buf rows) (ht : newline ∉ torn) (hl : newline ∉ line) :
    hashedStrings (buf ++ (torn ++ [newline]) ++ (line ++ [newline])) =
      hashedStrings buf ++ [torn, line] := by
  rw [hashedStrings, Text.lines_append_line (h.complete.append (Text.complete_line _)) hl,
    Text.lines_append_line h.complete ht]
  simp [hashedStrings]

private theorem sha256Hex_injOn {S : Set Bytes} (hinj : S.InjOn env.sha256) {x y : Bytes}
    (hx : x ∈ S) (hy : y ∈ S) (h : env.sha256Hex x = env.sha256Hex y) : x = y :=
  hinj hx hy (Subtype.ext (Text.hex_injective h))

/-- The seq after some rows says whether there were any and what their last seq was. -/
private theorem nextSeq_inj {rows rows' : List Accepted} {seq : U64}
    (h : nextSeq rows = some seq) (h' : nextSeq rows' = some seq) :
    rows.getLast?.map Accepted.seq = rows'.getLast?.map Accepted.seq := by
  have key {a : Accepted} (ha : a.seq.checkedAdd 1 = some seq) :
      a.seq.val + 1 = seq.val := by
    unfold U64.checkedAdd at ha
    split at ha
    · exact congrArg Fin.val (Option.some.inj ha)
    · simp at ha
  unfold nextSeq at h h'
  cases hr : rows.getLast? with
  | none =>
    cases hr' : rows'.getLast? with
    | none => rfl
    | some b =>
      simp only [hr, hr', Option.some.injEq] at h h'
      have := key h'
      simp [← h] at this
  | some a =>
    cases hr' : rows'.getLast? with
    | none =>
      simp only [hr, hr', Option.some.injEq] at h h'
      have := key h
      simp [← h'] at this
    | some b =>
      simp only [hr, hr'] at h h'
      have hab : a.seq.val = b.seq.val := by
        have h1 := key h
        have h2 := key h'
        omega
      exact congrArg some (Fin.ext hab)

private theorem Names.not_row {a : Accepted} {offset : Nat} {torn : Bytes}
    (h : Names env a offset torn) : a.event.isRecover = true := by
  obtain ⟨off, len, he, _⟩ := h
  rw [he]
  rfl

/-- Two ledgers that end in the same `(seq, head)` are the same bytes: the head fixes the
last line, and that line fixes the rest. -/
private theorem ledger_unique {S : Set Bytes} (hinj : S.InjOn env.sha256) {a b : Bytes}
    {rowsA rowsB : List Accepted} (ha : Ledger env a rowsA) (hb : Ledger env b rowsB)
    (hSa : ∀ x ∈ hashedStrings a, x ∈ S) (hSb : ∀ x ∈ hashedStrings b, x ∈ S)
    (hseq : rowsA.getLast?.map Accepted.seq = rowsB.getLast?.map Accepted.seq)
    (hhead : headOf rowsA = headOf rowsB) : a = b := by
  -- equal heads make the last lines equal, so they accept the same row after the same prefix
  have last {line line' : Bytes} {rows rows' : List Accepted} {seq seq' : U64} {x y : Accepted}
      (hx : env.checkRow line seq (headOf rows) = .ok x)
      (hy : env.checkRow line' seq' (headOf rows') = .ok y)
      (hn : nextSeq rows = some seq) (hn' : nextSeq rows' = some seq') (hl : line ∈ S)
      (hl' : line' ∈ S) (hh : headOf (rows ++ [x]) = headOf (rows' ++ [y])) :
      line = line' ∧ x = y ∧ headOf rows = headOf rows' ∧
        rows.getLast?.map Accepted.seq = rows'.getLast?.map Accepted.seq := by
    rw [headOf_snoc, headOf_snoc, (checkRow_seq hx).2, (checkRow_seq hy).2] at hh
    obtain rfl := sha256Hex_injOn hinj hl hl' hh
    obtain ⟨rfl, hp, rfl⟩ := checkRow_unique hx hy
    exact ⟨rfl, rfl, hp, nextSeq_inj hn hn'⟩
  induction ha generalizing b rowsB with
  | nil =>
    cases hb with
    | nil => rfl
    | row => simp at hseq
    | recovered => simp at hseq
  | @row bufA lineA rowsA seqA x hA hnA hlA _ hxA hrA ih =>
    rw [hashedStrings_snoc hA hlA] at hSa
    cases hb with
    | nil => simp at hseq
    | @row bufB lineB rowsB seqB y hB hnB hlB _ hyB _ =>
      rw [hashedStrings_snoc hB hlB] at hSb
      obtain ⟨rfl, -, hh, hs⟩ := last hxA hyB hnA hnB (hSa _ (by simp)) (hSb _ (by simp)) hhead
      rw [ih hB (fun z hz => hSa z (by simp [hz])) (fun z hz => hSb z (by simp [hz])) hs hh]
    | @recovered bufB torn lineB rowsB seqB y hB hnB htB _ _ hlB _ hyB hnames =>
      rw [hashedStrings_recovered hB htB hlB] at hSb
      obtain ⟨-, rfl, -, -⟩ := last hxA hyB hnA hnB (hSa _ (by simp)) (hSb _ (by simp)) hhead
      simp [hnames.not_row] at hrA
  | @recovered bufA tornA lineA rowsA seqA x hA hnA htA _ _ hlA _ hxA hnamesA ih =>
    rw [hashedStrings_recovered hA htA hlA] at hSa
    cases hb with
    | nil => simp at hseq
    | @row bufB lineB rowsB seqB y hB hnB hlB _ hyB hrB =>
      rw [hashedStrings_snoc hB hlB] at hSb
      obtain ⟨-, rfl, -, -⟩ := last hxA hyB hnA hnB (hSa _ (by simp)) (hSb _ (by simp)) hhead
      simp [hnamesA.not_row] at hrB
    | @recovered bufB tornB lineB rowsB seqB y hB hnB htB _ _ hlB _ hyB hnamesB =>
      rw [hashedStrings_recovered hB htB hlB] at hSb
      obtain ⟨rfl, rfl, hh, hs⟩ := last hxA hyB hnA hnB (hSa _ (by simp)) (hSb _ (by simp)) hhead
      have hbuf := ih hB (fun z hz => hSa z (by simp [hz])) (fun z hz => hSb z (by simp [hz])) hs hh
      -- both recover rows are one row, so they name one digest
      obtain ⟨off, len, heA, _⟩ := hnamesA
      obtain ⟨off', len', heB, _⟩ := hnamesB
      rw [heA, ReceiptEvent.recover.injEq] at heB
      obtain rfl := sha256Hex_injOn hinj (hSa tornA (by simp)) (hSb tornB (by simp)) heB.2.2
      rw [hbuf]

/-- With SHA-256 injective on what the two files hash, equal `(seq, head)` means equal files,
torn lines included. -/
theorem verified_file_determined_by_head (env : Env) (a b : Bytes)
    (hinj : {x | x ∈ hashedStrings a ∨ x ∈ hashedStrings b}.InjOn env.sha256)
    (ha : (env.verifyLines a).firstBreak = none) (hb : (env.verifyLines b).firstBreak = none)
    (hseq : (env.verifyLines a).seq = (env.verifyLines b).seq)
    (hhead : (env.verifyLines a).head = (env.verifyLines b).head) : a = b := by
  obtain ⟨rowsA, hA⟩ := verifyLines_noBreak.mp ha
  obtain ⟨rowsB, hB⟩ := verifyLines_noBreak.mp hb
  rw [hA.report.2.1, hB.report.2.1] at hseq
  rw [hA.report.2.2.1, hB.report.2.2.1] at hhead
  exact ledger_unique hinj hA hB (fun _ => .inl) (fun _ => .inr) hseq hhead

private theorem sampleSha_injOn :
    {x | x ∈ hashedStrings sampleFile ∨ x ∈ hashedStrings sampleFile}.InjOn sampleEnv.sha256 := by
  have hs : hashedStrings sampleFile = [sampleGenesis.line, sampleTorn, sampleRecover.line] := by
    decide +kernel
  have hd : ∀ x ∈ [sampleGenesis.line, sampleTorn, sampleRecover.line],
      ∀ y ∈ [sampleGenesis.line, sampleTorn, sampleRecover.line],
        sampleSha x = sampleSha y → x = y := by
    decide +kernel
  intro x hx y hy
  simp only [hs, Set.mem_ofPred_eq, or_self] at hx hy
  exact hd x hx y hy

/-- The short file with a torn line, against itself. -/
theorem verified_file_determined_by_head_sample :
    (sampleEnv.verifyLines sampleFile).state = .warn ∧ sampleFile = sampleFile :=
  ⟨by decide +kernel, verified_file_determined_by_head sampleEnv sampleFile sampleFile
    sampleSha_injOn (by decide +kernel) (by decide +kernel) rfl rfl⟩

end PulseNull.Oneself
