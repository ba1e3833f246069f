import PulseNull.Text.Bytes

/-! The matches of a pattern in a text, leftmost first and without overlap, and the text without
them. -/
namespace PulseNull.Text

/-- What a text may start with: the part that is captured, and the text after the match. -/
structure Pattern where
  start : Bytes → Option (Bytes × Bytes)
  shrinks : ∀ {text part after}, start text = some (part, after) → after.length < text.length

namespace Pattern
variable (m : Pattern)

def scanFrom : Nat → Bytes → List Bytes × Bytes
  | 0, text => ([], text)
  | _ + 1, [] => ([], [])
  | n + 1, c :: rest =>
    match m.start (c :: rest) with
    | some (part, after) =>
      let r := scanFrom n after
      (part :: r.1, r.2)
    | none =>
      let r := scanFrom n rest
      (r.1, c :: r.2)

/-- What is captured, and the text without the matches. -/
def scan (text : Bytes) : List Bytes × Bytes := m.scanFrom text.length text

/-- No match starts in the text when `rest` follows it. -/
def Quiet (text rest : Bytes) : Prop := ∀ b, b ≠ [] → b <:+ text → m.start (b ++ rest) = none

variable {m}

private theorem scanFrom_eq {n : Nat} {text : Bytes} (h : text.length ≤ n) :
    m.scanFrom n text = m.scan text := by
  have hall : ∀ k n text, List.length text ≤ n → text.length ≤ k →
      m.scanFrom n text = m.scanFrom k text := by
    intro k
    induction k with
    | zero =>
      intro n text _ hk
      obtain rfl := List.length_eq_zero_iff.mp (Nat.le_zero.mp hk)
      cases n <;> rfl
    | succ k ih =>
      intro n text hn hk
      cases n with
      | zero =>
        obtain rfl := List.length_eq_zero_iff.mp (Nat.le_zero.mp hn)
        rfl
      | succ n =>
        cases text with
        | nil => rfl
        | cons c rest =>
          rw [List.length_cons] at hn hk
          unfold scanFrom
          split
          · next part after hstart =>
            have hshort := m.shrinks hstart
            rw [List.length_cons] at hshort
            rw [ih n after (by omega) (by omega)]
          · rw [ih n rest (by omega) (by omega)]
  exact hall text.length n text h le_rfl

@[simp] theorem scan_nil : m.scan [] = ([], []) := rfl

theorem scan_match {text part after : Bytes} (h : m.start text = some (part, after)) :
    m.scan text = (part :: (m.scan after).1, (m.scan after).2) := by
  have hshort := m.shrinks h
  cases text with
  | nil => exact absurd hshort (Nat.not_lt_zero _)
  | cons c rest =>
    unfold scan
    rw [List.length_cons, scanFrom, h]
    simp only
    rw [scanFrom_eq (by simpa [Nat.lt_succ_iff] using hshort)]
    rfl

theorem scan_skip {c : UInt8} {rest : Bytes} (h : m.start (c :: rest) = none) :
    m.scan (c :: rest) = ((m.scan rest).1, c :: (m.scan rest).2) := by
  unfold scan
  rw [List.length_cons, scanFrom, h]

theorem Quiet.nil (rest : Bytes) : m.Quiet [] rest := by
  intro b hne hb
  exact absurd (List.suffix_nil.mp hb) hne

theorem quiet_cons {c : UInt8} {text rest : Bytes} :
    m.Quiet (c :: text) rest ↔ m.start (c :: (text ++ rest)) = none ∧ m.Quiet text rest := by
  constructor
  · intro h
    exact ⟨h _ (List.cons_ne_nil c text) (List.suffix_refl _),
      fun b hne hb => h b hne (hb.trans (List.suffix_cons c text))⟩
  · rintro ⟨hc, htext⟩ b hne hb
    rcases List.suffix_cons_iff.mp hb with rfl | hb
    · exact hc
    · exact htext b hne hb

theorem quiet_append {x y rest : Bytes} :
    m.Quiet (x ++ y) rest ↔ m.Quiet x (y ++ rest) ∧ m.Quiet y rest := by
  induction x with
  | nil => simp [Quiet.nil]
  | cons c x ih => rw [List.cons_append, quiet_cons, quiet_cons, ih, List.append_assoc, and_assoc]

theorem scan_quiet {text rest : Bytes} (h : m.Quiet text rest) :
    m.scan (text ++ rest) = ((m.scan rest).1, text ++ (m.scan rest).2) := by
  induction text with
  | nil => rfl
  | cons c text ih =>
    obtain ⟨hc, htext⟩ := quiet_cons.mp h
    rw [List.cons_append, scan_skip hc, ih htext, List.cons_append]

theorem scan_none {text : Bytes} (h : m.Quiet text []) : m.scan text = ([], text) := by
  simpa using scan_quiet h

theorem quiet_of_scan {text : Bytes} (h : (m.scan text).1 = []) : m.Quiet text [] := by
  induction text with
  | nil => exact .nil []
  | cons c text ih =>
    cases hc : m.start (c :: text) with
    | none =>
      rw [scan_skip hc] at h
      exact quiet_cons.mpr ⟨by rwa [List.append_nil], ih h⟩
    | some r =>
      rw [scan_match hc] at h
      exact nomatch h

/-- The first capture, after a part without matches. -/
theorem scan_head {pre text part after : Bytes} (hpre : m.Quiet pre text)
    (h : m.start text = some (part, after)) : (m.scan (pre ++ text)).1.head? = some part := by
  rw [scan_quiet hpre, scan_match h]
  rfl

/-- One match between two parts without any. -/
theorem scan_one {pre text part after : Bytes} (hpre : m.Quiet pre text)
    (h : m.start text = some (part, after)) (hafter : m.Quiet after []) :
    m.scan (pre ++ text) = ([part], pre ++ after) := by
  rw [scan_quiet hpre, scan_match h, scan_none hafter]

end Pattern
end PulseNull.Text
