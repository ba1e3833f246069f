import PulseNull.Oneself.Ledger

/-! The index of the whole lines of a file that grows: rows are numbered from zero, and what an
earlier index says is the beginning of what a later one says. -/
namespace PulseNull.Oneself
open Text (newline Complete)
variable {env : Env}

/-- Bytes up to and including the last newline. -/
def completePrefix (bytes : Bytes) : Bytes := (bytes.reverse.dropWhile (· ≠ newline)).reverse

theorem completePrefix_eq {a l : Bytes} (ha : Complete a) (hl : newline ∉ l) :
    completePrefix (a ++ l) = a := by
  unfold completePrefix
  rw [List.reverse_append, List.dropWhile_append_of_pos]
  · rcases ha with rfl | ⟨init, rfl⟩
    · rfl
    · simp
  · intro c hc
    have : c ≠ newline := fun h => hl (h ▸ List.mem_reverse.mp hc)
    simpa using this

/-- The whole lines of a file stay when bytes follow them. -/
theorem completePrefix_append (bytes more : Bytes) :
    ∃ rest, completePrefix (bytes ++ more) = completePrefix bytes ++ rest := by
  obtain ⟨a, l, ha, hl, rfl⟩ := Text.exists_tail bytes
  obtain ⟨b, m, hb, hm, heq⟩ := Text.exists_tail (l ++ more)
  refine ⟨b, ?_⟩
  rw [completePrefix_eq ha hl, List.append_assoc, heq, ← List.append_assoc,
    completePrefix_eq (ha.append hb) hm]

/-- `big` says what `small` says, and may know more rows. -/
structure ChainIndex.Extends (big small : ChainIndex) : Prop where
  pulse : big.pulse = small.pulse
  genesisHash : big.genesisHash = small.genesisHash
  rows : small.rows <+: big.rows

theorem ChainIndex.Extends.refl (index : ChainIndex) : index.Extends index :=
  ⟨rfl, rfl, List.prefix_rfl⟩

theorem ChainIndex.Extends.trans {a b c : ChainIndex} (h : a.Extends b) (h' : b.Extends c) :
    a.Extends c :=
  ⟨h.pulse.trans h'.pulse, h.genesisHash.trans h'.genesisHash, h'.rows.trans h.rows⟩

/-! The walk past the first row. -/

private theorem accept_extends (keep : Bool) (w : Walk) {a : Accepted}
    (h : a.event.isGenesis = false) : (w.accept keep a).index.Extends w.index := by
  cases keep
  · exact ⟨rfl, rfl, List.prefix_rfl⟩
  · refine ⟨?_, ?_, ?_⟩ <;> unfold Walk.accept ChainIndex.keepRow <;>
      cases he : a.event <;> simp_all [ReceiptEvent.isGenesis]

/-- Only the first row is a genesis. -/
private theorem not_genesis {rows : List Accepted} (hne : rows ≠ []) {line : Bytes} {seq : U64}
    {a : Accepted} (hs : nextSeq rows = some seq)
    (hc : env.checkRow line seq (headOf rows) = .ok a) : a.event.isGenesis = false := by
  obtain ⟨row, event, hr, rfl⟩ := checkRow_eq_ok.mp hc
  have hz : seq ≠ 0 := by
    rintro rfl
    obtain ⟨init, last, rfl⟩ := List.eq_nil_or_concat rows |>.resolve_left hne
    rw [List.concat_eq_append, nextSeq_snoc, U64.checkedAdd] at hs
    split at hs
    · simpa using congrArg Fin.val (Option.some.inj hs)
    · cases hs
  have := mt hr.genesis.mp hz
  simpa using this

private theorem walkLines_extends {keep : Bool} : ∀ (n : Nat) {lines : List Phys}, lines.length ≤ n →
    ∀ {w : Walk} {rows : List Accepted}, w.At rows → rows ≠ [] →
      (env.walkLines keep w lines).Extends w.index
  | _, [], _, w, _, _, _ => .refl w.index
  | n + 1, line :: rest, hn, w, rows, hw, hne => by
    cases hv : env.verdict w line rest.head? with
    | broken reason =>
      rw [walkLines_broken hv]
      exact ⟨rfl, rfl, List.prefix_rfl⟩
    | row a =>
      obtain ⟨seq, hs, _, _, hc, _⟩ := (verdict_row hw).mp hv
      rw [walkLines_row hv]
      exact (walkLines_extends n (by simpa using hn) (hw.accept keep a) (by simp)).trans
        (accept_extends keep w (not_genesis hne hs hc))
    | recovered a =>
      obtain ⟨seq, next, hs, hnext, _, _, _, _, hc, _⟩ := (verdict_recovered hw).mp hv
      obtain ⟨rest, rfl⟩ : ∃ rest', rest = next :: rest' := by
        cases rest <;> simp_all
      rw [walkLines_recovered hv]
      simp only [List.length_cons] at hn
      have hw' := hw.warn line.number .tornLine
      have hwarn : (w.warn line.number .tornLine).index.Extends w.index :=
        ⟨rfl, rfl, List.prefix_rfl⟩
      exact ((walkLines_extends n (by omega) (hw'.accept keep a) (by simp)).trans
        (accept_extends keep _ (not_genesis hne hs hc))).trans hwarn

/-- The index of a ledger with more bytes after it begins with the index of the ledger. -/
theorem Ledger.indexBytes_extends {buf : Bytes} {rows : List Accepted} (h : Ledger env buf rows)
    (hne : buf ≠ []) (more : Bytes) :
    (env.indexBytes (buf ++ more)).Extends (env.indexBytes buf) := by
  obtain ⟨w, hw, _, number, hp⟩ := h.walk_past true
  have walked {b : Bytes} (hb : b ≠ []) :
      env.indexBytes b = env.walkLines true .start (splitLines b) := by
    rw [Env.indexBytes, Env.walk, if_neg (mt splitLines_eq_nil.mp hb)]
  have hbuf : env.indexBytes buf = w.index := by
    rw [walked hne, ← List.append_nil buf, hp]
    rfl
  rw [hbuf, walked (by simp [hne]), hp]
  exact walkLines_extends _ le_rfl hw (h.rows_ne_nil hne)

/-! Rows are numbered. -/

/-- Row `i` has seq `i`. -/
theorem Ledger.seq_eq {buf : Bytes} {rows : List Accepted} (h : Ledger env buf rows) :
    ∀ i (hi : i < rows.length), (rows[i]).seq.val = i := by
  have snoc {rows : List Accepted} {seq : U64} {a : Accepted} {line : Bytes}
      (hn : nextSeq rows = some seq) (hc : env.checkRow line seq (headOf rows) = .ok a)
      (ih : ∀ i (hi : i < rows.length), (rows[i]).seq.val = i) :
      ∀ i (hi : i < (rows ++ [a]).length), ((rows ++ [a])[i]).seq.val = i := by
    intro i hi
    rcases Nat.lt_or_ge i rows.length with h | h
    · rw [List.getElem_append_left h]
      exact ih i h
    · have hi' : i = rows.length := by simp at hi; omega
      subst hi'
      rw [List.getElem_concat_length rfl, (checkRow_seq hc).1]
      unfold nextSeq at hn
      cases hl : rows.getLast? with
      | none =>
        rw [List.getLast?_eq_none_iff] at hl
        subst hl
        rw [← Option.some.inj hn]
        rfl
      | some last =>
        rw [List.getLast?_eq_getElem?] at hl
        obtain ⟨hpos, hlast⟩ := List.getElem?_eq_some_iff.mp hl
        have := ih _ hpos
        rw [hlast] at this
        simp only [List.getLast?_eq_getElem?, hl, U64.checkedAdd] at hn
        split at hn
        · rw [← Option.some.inj hn]
          simp only
          omega
        · cases hn
  induction h with
  | nil => exact fun i hi => absurd hi (by simp)
  | row _ hn _ _ hc _ ih => exact snoc hn hc ih
  | recovered _ hn _ _ _ _ _ hc _ ih => exact snoc hn hc ih

/-- Row `i` of an index has seq `i`, and the report names the last. -/
structure ChainIndex.Numbered (index : ChainIndex) : Prop where
  seq_eq : ∀ i (hi : i < index.rows.length), (index.rows[i]).seq.val = i
  last : index.report.seq = index.rows.getLast?.map IndexedRow.seq
  noBreak : index.report.firstBreak = none

theorem Ledger.numbered {buf : Bytes} {rows : List Accepted} (h : Ledger env buf rows) :
    (env.indexBytes buf).Numbered := by
  have hrows := h.indexBytes_rows
  have hreport : (env.indexBytes buf).report.seq = rows.getLast?.map Accepted.seq ∧
      (env.indexBytes buf).report.firstBreak = none := by
    unfold Env.indexBytes Env.walk
    split
    · next he =>
      cases h with
      | nil => exact ⟨rfl, rfl⟩
      | row => simp [splitLines_eq_nil] at he
      | recovered => simp [splitLines_eq_nil] at he
    · obtain ⟨w, hw, _, number, hp⟩ := h.walk_past true
      have := hp []
      rw [List.append_nil, Text.lines_nil, physFrom] at this
      rw [this]
      exact ⟨hw.seq, hw.noBreak⟩
  refine ⟨fun i hi => ?_, ?_, hreport.2⟩
  · simp only [hrows, List.getElem_map, List.length_map] at hi ⊢
    exact h.seq_eq i hi
  · rw [hreport.1, hrows, List.getLast?_map, Option.map_map]
    rfl

/-- A row of the longer index whose seq the shorter one reaches is in the shorter one. -/
theorem ChainIndex.Extends.mem_of_seq_le {big small : ChainIndex} (h : big.Extends small)
    (hb : big.Numbered) {row last : IndexedRow} (hr : row ∈ big.rows) (hl : last ∈ small.rows)
    (hle : row.seq ≤ last.seq) : row ∈ small.rows := by
  obtain ⟨i, hi, rfl⟩ := List.getElem_of_mem hr
  obtain ⟨j, hj, rfl⟩ := List.getElem_of_mem hl
  have hlen := h.rows.length_le
  have hj' : small.rows[j] = big.rows[j] := h.rows.getElem hj
  have hle : i ≤ j := by
    have := Fin.le_def.mp hle
    rw [hj', hb.seq_eq i hi, hb.seq_eq j (by omega)] at this
    exact this
  rw [← h.rows.getElem (show i < small.rows.length by omega)]
  exact List.getElem_mem _

/-- Two rows of an index with one seq are one row. -/
theorem ChainIndex.Numbered.unique {index : ChainIndex} (h : index.Numbered)
    {row row' : IndexedRow} (hr : row ∈ index.rows) (hr' : row' ∈ index.rows)
    (hs : row.seq = row'.seq) : row = row' := by
  obtain ⟨i, hi, rfl⟩ := List.getElem_of_mem hr
  obtain ⟨j, hj, rfl⟩ := List.getElem_of_mem hr'
  have := congrArg Fin.val hs
  rw [h.seq_eq i hi, h.seq_eq j hj] at this
  subst this
  rfl

end PulseNull.Oneself
