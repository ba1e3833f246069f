import PulseNull.Coordinator.Durable
import PulseNull.Coordinator.Fold

/-! Replay of a log that the table wrote: the whole lines, whatever bytes follow them. -/
namespace PulseNull.Coordinator
open Text (ascii newline Complete)
variable {chrono : Chrono} {inRange : Bytes → Bool}

/-! Tail repair. -/

private def scan (s : Nat × Nat) (b : UInt8) : Nat × Nat :=
  (s.1 + 1, if b = newline then s.1 + 1 else s.2)

private theorem scan_length (file : Bytes) (s : Nat × Nat) :
    (file.foldl scan s).1 = s.1 + file.length := by
  induction file generalizing s with
  | nil => rfl
  | cons b bs ih =>
    rw [List.foldl_cons, ih, List.length_cons]
    simp only [scan]
    omega

private theorem scan_tail {l : Bytes} (h : newline ∉ l) (s : Nat × Nat) :
    (l.foldl scan s).2 = s.2 := by
  induction l generalizing s with
  | nil => rfl
  | cons b bs ih =>
    have hb : b ≠ newline := fun he => h (he ▸ List.mem_cons_self)
    rw [List.foldl_cons, ih (fun hm => h (List.mem_cons_of_mem _ hm))]
    exact if_neg hb

/-- Whole lines stay, an unterminated piece goes. -/
theorem repairTail_append {a l : Bytes} (ha : Complete a) (hl : newline ∉ l) :
    repairTail (a ++ l) = a := by
  have hk : keepLength (a ++ l) = a.length := by
    change ((a ++ l).foldl scan (0, 0)).2 = a.length
    rw [List.foldl_append, scan_tail hl]
    rcases ha with rfl | ⟨init, rfl⟩
    · rfl
    · rw [List.foldl_append, List.foldl_cons, List.foldl_nil, scan, if_pos rfl, scan_length]
      simp
  rw [repairTail, hk, List.take_left]

/-! The lines of a file without long ones. -/

def numbered (number : Nat) : List Text.Line → List RawLine
  | [] => []
  | l :: ls => ⟨number, l.bytes, l.terminated⟩ :: numbered (number + 1) ls

private theorem takeWhile_line {l rest : Bytes} (hl : newline ∉ l) :
    (l ++ newline :: rest).takeWhile (· ≠ newline) = l := by
  rw [List.takeWhile_append_of_pos]
  · simp
  · intro c hc
    simpa using fun he : c = newline => hl (he ▸ hc)

theorem readRaw_eq (file : Bytes) : ∀ (fuel number : Nat), file.length < fuel →
    (∀ l ∈ Text.lines file, l.bytes.length ≤ maxLineBytes) →
      readRaw fuel number file = numbered number (Text.lines file) := by
  induction file using Text.lines_induction with
  | nil =>
    intro fuel number hf _
    cases fuel with
    | zero => omega
    | succ fuel => rfl
  | torn l hl hne =>
    intro fuel number hf hs
    rw [Text.lines_unterminated hl hne] at hs ⊢
    have hlen : l.length ≤ maxLineBytes := hs _ List.mem_cons_self
    have hw : l.takeWhile (· ≠ newline) = l := by
      rw [List.takeWhile_eq_self_iff]
      intro c hc
      simpa using fun he : c = newline => hl (he ▸ hc)
    cases fuel with
    | zero => omega
    | succ fuel =>
      rw [readRaw, if_neg hne, List.take_of_length_le (by omega)]
      simp only [hw, Nat.lt_irrefl, decide_false, Bool.not_false, Bool.true_and, decide_eq_true_eq,
        if_neg (Nat.not_lt.mpr hlen), Bool.false_eq_true, if_false, Nat.add_zero, List.drop_length]
      cases fuel <;> simp [readRaw, numbered]
  | line l rest hl ih =>
    intro fuel number hf hs
    rw [Text.lines_line hl] at hs ⊢
    have hlen : l.length ≤ maxLineBytes := hs _ List.mem_cons_self
    cases fuel with
    | zero => omega
    | succ fuel =>
      have ht : (l ++ newline :: rest).take (maxLineBytes + 1) =
          l ++ newline :: rest.take (maxLineBytes - l.length) := by
        rw [List.take_append, List.take_of_length_le (by omega),
          show maxLineBytes + 1 - l.length = (maxLineBytes - l.length) + 1 by omega, List.take_succ_cons]
      have hd : (l ++ newline :: rest).drop (l.length + 1) = rest := by
        rw [← List.drop_drop, List.drop_left]
        rfl
      have hlt : l.length < (l ++ newline :: rest.take (maxLineBytes - l.length)).length := by
        simp only [List.length_append, List.length_cons]
        omega
      rw [readRaw, if_neg (by simp), ht]
      simp only [takeWhile_line hl, hlt, decide_true, Bool.not_true, Bool.false_and,
        Bool.false_eq_true, if_false, if_true, hd]
      rw [ih fuel (number + 1) _ (fun x hx => hs x (List.mem_cons_of_mem _ hx)), numbered]
      simp only [List.length_append, List.length_cons] at hf
      omega

/-! A file of written lines. -/

/-- `file` is the lines of `events`. -/
def Logged (chrono : Chrono) (inRange : Bytes → Bool) (file : Bytes) (events : List LeaseEvent) : Prop :=
  ∃ lines, List.Forall₂ (Written chrono inRange) events lines ∧
    file = lines.flatMap (· ++ [newline])

theorem Logged.nil : Logged chrono inRange [] [] := ⟨[], .nil, rfl⟩

theorem Logged.snoc {file line : Bytes} {events : List LeaseEvent} {e : LeaseEvent}
    (h : Logged chrono inRange file events) (hw : Written chrono inRange e line) :
    Logged chrono inRange (file ++ (line ++ [newline])) (events ++ [e]) := by
  obtain ⟨lines, hl, rfl⟩ := h
  refine ⟨lines ++ [line], List.rel_append hl (.cons hw .nil), ?_⟩
  rw [List.flatMap_append, List.flatMap_singleton]

theorem Logged.complete {file : Bytes} {events : List LeaseEvent}
    (h : Logged chrono inRange file events) : Complete file := by
  obtain ⟨lines, hl, rfl⟩ := h
  induction lines using List.reverseRecOn with
  | nil => exact Text.complete_nil
  | append_singleton lines line _ =>
    rw [List.flatMap_append, List.flatMap_singleton, ← List.append_assoc]
    exact Text.complete_snoc _

private theorem lines_written {events : List LeaseEvent} {lines : List Bytes}
    (h : List.Forall₂ (Written chrono inRange) events lines) :
    Text.lines (lines.flatMap (· ++ [newline])) = lines.map (⟨·, true⟩) := by
  induction h with
  | nil => rfl
  | cons hw _ ih =>
    rw [List.flatMap_cons, List.append_assoc, List.singleton_append,
      Text.lines_line hw.noNewline, ih, List.map_cons]

private theorem written_fits {events : List LeaseEvent} {lines : List Bytes}
    (h : List.Forall₂ (Written chrono inRange) events lines) : ∀ l ∈ lines, l.length ≤ 4096 := by
  induction h with
  | nil => simp
  | cons hw _ ih => exact List.forall_mem_cons.mpr ⟨hw.fits, ih⟩

private theorem Written.readNumbered {e : LeaseEvent} {line : Bytes}
    (h : Written chrono inRange e line) (number : Nat) (ls : List RawLine) :
    readNumbered chrono inRange (⟨number, line, true⟩ :: ls) = do
      let events ← readNumbered chrono inRange ls
      return (number, e) :: events := by
  have hv : line.all isWhitespace = false := by
    obtain ⟨c, hc, hb⟩ := h.visible
    rw [List.all_eq_false]
    exact ⟨c, hc, by rw [hb]; decide⟩
  have hf : ¬ maxLineBytes < line.length := by
    have := h.fits
    unfold maxLineBytes
    omega
  rw [Coordinator.readNumbered]
  simp only [hv, Bool.false_eq_true, if_false, if_neg hf, h.parsed, if_true]

private theorem replay_written {events : List LeaseEvent} {lines : List Bytes}
    (h : List.Forall₂ (Written chrono inRange) events lines) (number : Nat) {t t' : LeaseTable}
    (ht : t.applyAll events = .ok t') : (do
      let events ← readNumbered chrono inRange (numbered number (lines.map (⟨·, true⟩)))
      applyNumbered t events) = .ok t' := by
  induction h generalizing number t with
  | nil =>
    simp only [LeaseTable.applyAll, List.foldlM_nil, pure, Except.pure] at ht
    simpa [numbered, readNumbered, applyNumbered, bind, Except.bind] using ht
  | @cons e line events lines hw _ ih =>
    simp only [LeaseTable.applyAll, List.foldlM_cons, bind_eq_ok] at ht
    obtain ⟨b, hb, ht⟩ := ht
    have hrest := ih (number + 1) ht
    simp only [bind_eq_ok] at hrest
    obtain ⟨es, hes, hap⟩ := hrest
    rw [List.map_cons, numbered, hw.readNumbered, hes]
    simp only [bind, Except.bind, pure, Except.pure, applyNumbered, hb, Except.mapError]
    exact hap

/-- A log that the table wrote, with an unterminated piece after it, opens as the fold of its
events. -/
theorem Logged.open {file tail : Bytes} {events : List LeaseEvent} {t : LeaseTable}
    (h : Logged chrono inRange file events) (htail : newline ∉ tail)
    (ht : LeaseTable.new.applyAll events = .ok t) :
    DurableLeaseTable.open chrono inRange (file ++ tail) false = .ok ⟨t, ⟨file, false⟩⟩ := by
  have hc := h.complete
  obtain ⟨lines, hl, rfl⟩ := h
  have hshort : ∀ l ∈ Text.lines (lines.flatMap (· ++ [newline])), l.bytes.length ≤ maxLineBytes := by
    rw [lines_written hl]
    intro l hm
    obtain ⟨line, hline, rfl⟩ := List.mem_map.mp hm
    have := written_fits hl line hline
    simp only [maxLineBytes]
    omega
  have hraw := readRaw_eq _ _ 1 (Nat.lt_succ_self _) hshort
  rw [lines_written hl] at hraw
  have hrep := replay_written hl 1 ht
  simp only [DurableLeaseTable.open, LeaseWal.new, Bool.false_eq_true, if_false, repairTail_append hc htail, bind,
    Except.bind, LeaseWal.replay, LeaseWal.readRaw, hraw]
  simp only [bind, Except.bind] at hrep
  rw [hrep]
  rfl

end PulseNull.Coordinator
