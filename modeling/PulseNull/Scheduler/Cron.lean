import PulseNull.Text.Words

/-! Day-of-week fields of cron expressions: the days POSIX reads in one, the days the cron crate reads, and
the rewriting that stands between them. Days are counted from Sunday, 0, to Saturday, 6. -/
namespace PulseNull.Scheduler
open Text (ascii splitWhitespace IsWord)

/-- Sunday `0` becomes `7` in a 6-field expression. -/
def normalizeCron (expr : Bytes) : Bytes :=
  match splitWhitespace expr with
  | [second, minute, hour, day, month, dow] =>
    if dow = ascii "0" then [32].intercalate [second, minute, hour, day, month, ascii "7"] else expr
  | _ => expr

/-! Day-of-week fields: lists of numbers, names and ranges, with steps after a range or an asterisk. -/

inductive DowItem where
  | number (n : Fin 8)
  | name (day : Fin 7)
  | all (step : Nat)
  | numbers (lo hi : Fin 8) (step : Nat)
  | names (lo hi : Fin 7) (step : Nat)
  deriving DecidableEq

def dayNumber : Bytes → Option (Fin 8)
  | [c] => if h : 48 ≤ c.toNat ∧ c.toNat < 56 then some ⟨c.toNat - 48, by omega⟩ else none
  | _ => none

def dayNames : Fin 7 → List String :=
  ![["sun", "sunday"], ["mon", "monday"], ["tue", "tuesday"], ["wed", "wednesday"], ["thu", "thursday"],
    ["fri", "friday"], ["sat", "saturday"]]

def dayName (text : Bytes) : Option (Fin 7) :=
  (List.finRange 7).find? fun day => (dayNames day).any fun name => Text.eqIgnoreAsciiCase text (ascii name)

def stepNumber (text : Bytes) : Option Nat :=
  (dayNumber text).bind fun n => if n = 0 then none else some n.val

def dowRange (lo hi : Bytes) (step : Nat) : Option DowItem :=
  match dayNumber lo, dayNumber hi, dayName lo, dayName hi with
  | some lo, some hi, _, _ => some (.numbers lo hi step)
  | _, _, some lo, some hi => some (.names lo hi step)
  | _, _, _, _ => none

def dowBase (text : Bytes) (step : Option Nat) : Option DowItem :=
  match text.splitOn 45 with
  | [one] =>
    if one = ascii "*" then some (.all (step.getD 1))
    else if step.isSome then none
    else (dayNumber one).map .number <|> (dayName one).map .name
  | [lo, hi] => dowRange lo hi (step.getD 1)
  | _ => none

def dowItem (text : Bytes) : Option DowItem :=
  match text.splitOn 47 with
  | [base] => dowBase base none
  | [base, step] => (stepNumber step).bind fun step => dowBase base (some step)
  | _ => none

def dowField (text : Bytes) : Option (List DowItem) := (text.splitOn 44).mapM dowItem

/-! The days of a field. -/

/-- The days of `lo`, `lo + step` and so on up to `hi`, modulo a week. -/
def spanDays (lo hi step : Nat) : Finset (Fin 7) :=
  ((Finset.Icc lo hi).filter fun n => (n - lo) % step = 0).image (Fin.ofNat 7)

/-- The days POSIX reads in a number, 0 and 7 both Sunday. A range that runs backwards goes over the end of
the week. -/
def DowItem.numberedDays : DowItem → Finset (Fin 7)
  | .number n => {Fin.ofNat 7 n}
  | .numbers lo hi step => spanDays lo (if lo ≤ hi then hi else hi + 7) step
  | .name _ | .all _ | .names .. => ∅

/-- The days POSIX reads in a name or an asterisk. -/
def DowItem.namedDays : DowItem → Finset (Fin 7)
  | .name day => {day}
  | .all step => spanDays 0 6 step
  | .names lo hi step => spanDays lo (if lo ≤ hi then hi else hi + 7) step
  | .number _ | .numbers .. => ∅

/-- The cron crate refuses a 0 and a range that runs backwards. -/
def DowItem.accepted : DowItem → Bool
  | .number n => n ≠ 0
  | .numbers lo hi _ => lo ≠ 0 && lo ≤ hi
  | .names lo hi _ => lo ≤ hi
  | .name _ | .all _ => true

/-- The days the cron crate reads: 1 is Sunday and 7 Saturday. -/
def DowItem.crateDays : DowItem → Finset (Fin 7)
  | .number n => {Fin.ofNat 7 (n - 1)}
  | .name day => {day}
  | .all step => spanDays 0 6 step
  | .numbers lo hi step => spanDays (lo - 1) (hi - 1) step
  | .names lo hi step => spanDays lo hi step

def numberedDays (field : List DowItem) : Finset (Fin 7) :=
  field.foldr (fun item days => item.numberedDays ∪ days) ∅

def namedDays (field : List DowItem) : Finset (Fin 7) :=
  field.foldr (fun item days => item.namedDays ∪ days) ∅

def posixDays (field : List DowItem) : Finset (Fin 7) := numberedDays field ∪ namedDays field

/-- The days of a field the crate accepts. -/
def crateDays (field : List DowItem) : Option (Finset (Fin 7)) :=
  if field.all DowItem.accepted then some (field.foldr (fun item days => item.crateDays ∪ days) ∅) else none

/-! Expressions and what fires them. -/

/-- An expression of six fields whose last is a day-of-week field. -/
structure CronExpr where
  text : Bytes
  fields : List Bytes
  dow : Bytes
  items : List DowItem
  plain : ∀ b ∈ text, b < 128
  words : splitWhitespace text = fields ++ [dow]
  five : fields.length = 5
  parsed : dowField dow = some items

/-- The cron crate: when an expression fires, the weekday of an instant, and what five fields say of one. -/
structure CronCrate (Instant : Type) where
  fires : Bytes → Instant → Prop
  weekday : Instant → Fin 7
  meets : List Bytes → Instant → Prop

variable {Instant : Type}

/-- The crate reads an expression field by field; one it refuses never fires. -/
def CronCrate.ReadsDays (crate : CronCrate Instant) : Prop :=
  ∀ (expr : CronExpr) (t : Instant), crate.fires expr.text t ↔
    crate.meets expr.fields t ∧ ∃ days ∈ crateDays expr.items, crate.weekday t ∈ days

/-- The POSIX reading of an expression. -/
def CronCrate.posixFires (crate : CronCrate Instant) (expr : CronExpr) (t : Instant) : Prop :=
  crate.meets expr.fields t ∧ crate.weekday t ∈ posixDays expr.items

/-- The weekdays on which the first five fields are met at some instant. -/
def CronCrate.reached (crate : CronCrate Instant) (expr : CronExpr) : Set (Fin 7) :=
  {day | ∃ t, crate.meets expr.fields t ∧ crate.weekday t = day}

/-- The days of a field survive a reading one day back. On every weekday at issue the field names the day, or
gives both it and the next one by number, or neither; and a field the crate refuses, other than a single 0,
asks for none of these weekdays. -/
def CronExpr.Kept (expr : CronExpr) (days : Set (Fin 7)) : Prop :=
  if expr.dow = ascii "0" ∨ expr.items.all DowItem.accepted then
    ∀ day ∈ days, day ∈ namedDays expr.items ∨ (day ∈ numberedDays expr.items ↔ day + 1 ∈ numberedDays expr.items)
  else ∀ day ∈ days, day ∉ posixDays expr.items

/-! Days. -/

theorem mem_spanDays {lo hi step : Nat} {day : Fin 7} : day ∈ spanDays lo hi step ↔
    ∃ n, lo ≤ n ∧ n ≤ hi ∧ (n - lo) % step = 0 ∧ Fin.ofNat 7 n = day := by
  simp [spanDays, and_assoc]

private theorem ofNat_succ (n : Nat) : Fin.ofNat 7 (n + 1) = Fin.ofNat 7 n + 1 := by
  apply Fin.ext
  simp only [Fin.ofNat, Fin.val_add]
  omega

/-- A span one day back. -/
theorem mem_spanDays_pred {lo hi step : Nat} (hlo : 1 ≤ lo) (hhi : lo ≤ hi) {day : Fin 7} :
    day ∈ spanDays (lo - 1) (hi - 1) step ↔ day + 1 ∈ spanDays lo hi step := by
  rw [mem_spanDays, mem_spanDays]
  constructor
  · rintro ⟨n, h1, h2, h3, rfl⟩
    refine ⟨n + 1, by omega, by omega, ?_, ofNat_succ n⟩
    rwa [show n + 1 - lo = n - (lo - 1) by omega]
  · rintro ⟨n, h1, h2, h3, hn⟩
    obtain ⟨m, rfl⟩ := Nat.exists_eq_add_of_le' (hlo.trans h1)
    refine ⟨m, by omega, by omega, ?_, ?_⟩
    · rwa [show m - (lo - 1) = m + 1 - lo by omega]
    · exact add_right_cancel ((ofNat_succ m).symm.trans hn)

/-- The crate reads names as POSIX does, and a number one day back. -/
theorem DowItem.mem_crateDays {item : DowItem} (h : item.accepted = true) {day : Fin 7} :
    day ∈ item.crateDays ↔ day ∈ item.namedDays ∨ day + 1 ∈ item.numberedDays := by
  cases item with
  | number n =>
    have hpred : Fin.ofNat 7 n = Fin.ofNat 7 (n - 1) + 1 := by
      have hn : n ≠ 0 := of_decide_eq_true h
      obtain ⟨m, hm⟩ := Nat.exists_eq_succ_of_ne_zero (Fin.val_ne_of_ne hn)
      rw [hm]
      exact ofNat_succ m
    rw [crateDays, namedDays, numberedDays, Finset.mem_singleton, Finset.mem_singleton, hpred]
    simp
  | name day => simp [crateDays, namedDays, numberedDays]
  | all step => simp [crateDays, namedDays, numberedDays]
  | numbers lo hi step =>
    obtain ⟨hlo, hle⟩ := Bool.and_eq_true_iff.mp h
    have hle : lo ≤ hi := of_decide_eq_true hle
    have hlo : 1 ≤ lo.val := Nat.one_le_iff_ne_zero.mpr (Fin.val_ne_of_ne (of_decide_eq_true hlo))
    simp [crateDays, namedDays, numberedDays, if_pos hle, mem_spanDays_pred hlo hle]
  | names lo hi step =>
    have hle : lo ≤ hi := of_decide_eq_true h
    simp [crateDays, namedDays, numberedDays, if_pos hle]

private theorem mem_union {f : DowItem → Finset (Fin 7)} {field : List DowItem} {day : Fin 7} :
    day ∈ field.foldr (fun item days => f item ∪ days) ∅ ↔ ∃ item ∈ field, day ∈ f item := by
  induction field with
  | nil => simp
  | cons item field ih => simp [ih]

/-- The days the crate reads in a field it accepts. -/
theorem mem_crateDays {field : List DowItem} (h : field.all DowItem.accepted = true) {day : Fin 7} :
    (∃ days ∈ crateDays field, day ∈ days) ↔ day ∈ namedDays field ∨ day + 1 ∈ numberedDays field := by
  rw [crateDays, if_pos h]
  simp only [Option.mem_def, Option.some.injEq, exists_eq_left', namedDays, numberedDays, mem_union]
  rw [← exists_or]
  refine exists_congr fun item => ?_
  rw [← and_or_left]
  exact and_congr_right fun hi => DowItem.mem_crateDays (List.all_eq_true.mp h item hi)

/-! The rewritten expression. -/

namespace CronExpr

theorem fields_eq (expr : CronExpr) : ∃ second minute hour day month,
    expr.fields = [second, minute, hour, day, month] := by
  have hlen := expr.five
  rcases hf : expr.fields with _ | ⟨a, _ | ⟨b, _ | ⟨c, _ | ⟨d, _ | ⟨e, _ | ⟨f, rest⟩⟩⟩⟩⟩⟩ <;>
    simp [hf] at hlen ⊢

theorem normalizeCron_other {expr : CronExpr} (h : expr.dow ≠ ascii "0") : normalizeCron expr.text = expr.text := by
  obtain ⟨second, minute, hour, day, month, hf⟩ := expr.fields_eq
  rw [normalizeCron, expr.words, hf]
  exact if_neg h

theorem normalizeCron_zero {expr : CronExpr} (h : expr.dow = ascii "0") :
    normalizeCron expr.text = [32].intercalate (expr.fields ++ [ascii "7"]) := by
  obtain ⟨second, minute, hour, day, month, hf⟩ := expr.fields_eq
  rw [normalizeCron, expr.words, hf]
  exact if_pos h

theorem fields_word (expr : CronExpr) : ∀ w ∈ expr.fields, IsWord w := by
  intro w hw
  have hmem : w ∈ splitWhitespace expr.text := by
    rw [expr.words]
    exact List.mem_append_left _ hw
  exact Text.splitWhitespace_word expr.plain w hmem

/-- The expression a single 0 is rewritten to. -/
def normalized (expr : CronExpr) (h : expr.dow = ascii "0") : CronExpr where
  text := normalizeCron expr.text
  fields := expr.fields
  dow := ascii "7"
  items := [.number 7]
  plain := by
    obtain ⟨second, minute, hour, day, month, hf⟩ := expr.fields_eq
    have hw := expr.fields_word
    have plain : ∀ w ∈ expr.fields, ∀ b ∈ w, b < 128 := fun w hw b hb => ((expr.fields_word w hw).2 b hb).1
    rw [normalizeCron_zero h]
    rw [hf] at plain ⊢
    simp only [List.forall_mem_cons] at plain
    obtain ⟨h1, h2, h3, h4, h5, -⟩ := plain
    simp only [List.intercalate, List.cons_append, List.nil_append, List.intersperse, List.flatten_cons,
      List.flatten_nil, List.append_nil, List.forall_mem_append, List.forall_mem_cons]
    exact ⟨h1, by decide, h2, by decide, h3, by decide, h4, by decide, h5, by decide,
      List.forall_mem_singleton.mpr (by decide)⟩
  words := by
    obtain ⟨second, minute, hour, day, month, hf⟩ := expr.fields_eq
    have hw := expr.fields_word
    rw [normalizeCron_zero h]
    rw [hf] at hw ⊢
    simp only [List.forall_mem_cons] at hw
    obtain ⟨h1, h2, h3, h4, h5, -⟩ := hw
    have h7 : IsWord (ascii "7") := ⟨by decide, List.forall_mem_singleton.mpr (by unfold Text.IsInk; decide)⟩
    have htext : [32].intercalate ([second, minute, hour, day, month] ++ [ascii "7"]) = second ++ 32 ::
        (minute ++ 32 :: (hour ++ 32 :: (day ++ 32 :: (month ++ 32 :: ascii "7")))) := by
      simp [List.intercalate]
    rw [htext, h1.splitWhitespace_cons, h2.splitWhitespace_cons, h3.splitWhitespace_cons,
      h4.splitWhitespace_cons, h5.splitWhitespace_cons, h7.splitWhitespace]
    rfl
  five := expr.five
  parsed := by decide

end CronExpr

/-! When the rewritten expression fires. -/

variable {crate : CronCrate Instant} {expr : CronExpr}

private theorem zero_days (h : expr.dow = ascii "0") {day : Fin 7} :
    (day ∈ ({6} : Finset (Fin 7)) ↔ day ∈ namedDays expr.items ∨ day + 1 ∈ numberedDays expr.items) := by
  have hitems : expr.items = [.number 0] := Option.some.inj (expr.parsed.symm.trans (by rw [h]; decide))
  rw [hitems]
  revert day
  decide

/-- A field is read one day back, or its expression is refused. -/
theorem fires_normalizeCron (hr : crate.ReadsDays) (t : Instant) : crate.fires (normalizeCron expr.text) t ↔
    crate.meets expr.fields t ∧ (expr.dow = ascii "0" ∨ expr.items.all DowItem.accepted) ∧
      (crate.weekday t ∈ namedDays expr.items ∨ crate.weekday t + 1 ∈ numberedDays expr.items) := by
  by_cases h0 : expr.dow = ascii "0"
  · have hf : crate.fires (normalizeCron expr.text) t ↔ crate.meets expr.fields t ∧ _ :=
      hr (expr.normalized h0) t
    have hdays : crateDays (expr.normalized h0).items = some {6} := by
      change crateDays [.number 7] = some {6}
      decide
    rw [hdays] at hf
    simp only [Option.mem_def, Option.some.injEq, exists_eq_left', zero_days h0] at hf
    simpa [h0] using hf
  · rw [CronExpr.normalizeCron_other h0, hr expr t]
    refine and_congr_right fun _ => ?_
    by_cases ha : expr.items.all DowItem.accepted = true
    · rw [mem_crateDays ha]
      simp [ha]
    · simp [crateDays, ha, h0]

/-- The rewritten expression fires when POSIX has it exactly when its days survive a reading one day back. -/
theorem normalizeCron_posix_iff (crate : CronCrate Instant) (hr : crate.ReadsDays) (expr : CronExpr) :
    (∀ t, crate.fires (normalizeCron expr.text) t ↔ crate.posixFires expr t) ↔
      expr.Kept (crate.reached expr) := by
  have hreach (P : Fin 7 → Prop) : (∀ t, crate.meets expr.fields t → P (crate.weekday t)) ↔
      ∀ day ∈ crate.reached expr, P day := by
    constructor
    · rintro h _ ⟨t, ht, rfl⟩
      exact h t ht
    · exact fun h t ht => h _ ⟨t, ht, rfl⟩
  unfold CronExpr.Kept
  simp only [fires_normalizeCron hr, CronCrate.posixFires, and_congr_right_iff, posixDays, Finset.mem_union]
  split
  · next ha =>
    rw [← hreach]
    refine forall_congr' fun t => imp_congr_right fun _ => ?_
    simp only [ha, true_and]
    tauto
  · next ha =>
    rw [← hreach]
    refine forall_congr' fun t => imp_congr_right fun _ => ?_
    simp only [ha, false_and, false_iff]

/-! A crate on seconds since 1970 that knows the times of day "0 0 11 * *", and two expressions for it. -/

def elevenCrate : CronCrate ℤ where
  weekday t := Fin.ofNat 7 ((t / 86400 + 4) % 7).toNat
  meets fields t := fields = [ascii "0", ascii "0", ascii "11", ascii "*", ascii "*"] ∧ t % 86400 = 39600
  fires text t := ∃ expr : CronExpr, expr.text = text ∧
    (expr.fields = [ascii "0", ascii "0", ascii "11", ascii "*", ascii "*"] ∧ t % 86400 = 39600) ∧
    ∃ days ∈ crateDays expr.items, Fin.ofNat 7 ((t / 86400 + 4) % 7).toNat ∈ days

theorem elevenCrate_reads : elevenCrate.ReadsDays := by
  intro expr t
  constructor
  · rintro ⟨other, htext, hmeets, hdays⟩
    have hwords : other.fields ++ [other.dow] = expr.fields ++ [expr.dow] := by
      rw [← other.words, ← expr.words, htext]
    obtain ⟨hfields, hdow⟩ := List.append_inj' hwords rfl
    have hitems : other.items = expr.items := by
      have hp := other.parsed
      rw [List.singleton_inj.mp hdow, expr.parsed] at hp
      exact (Option.some.inj hp).symm
    exact ⟨hfields ▸ hmeets, hitems ▸ hdays⟩
  · rintro ⟨hmeets, hdays⟩
    exact ⟨expr, rfl, hmeets, hdays⟩

def elevenExpr (dow : String) (items : List DowItem) (plain : ∀ b ∈ ascii ("0 0 11 * * " ++ dow), b < 128)
    (words : splitWhitespace (ascii ("0 0 11 * * " ++ dow)) =
      [ascii "0", ascii "0", ascii "11", ascii "*", ascii "*", ascii dow])
    (parsed : dowField (ascii dow) = some items) : CronExpr :=
  ⟨ascii ("0 0 11 * * " ++ dow), [ascii "0", ascii "0", ascii "11", ascii "*", ascii "*"], ascii dow, items,
    plain, words, rfl, parsed⟩

def sundayExpr : CronExpr := elevenExpr "0" [.number 0] (by decide +kernel) (by decide +kernel) (by decide)

def weekendExpr : CronExpr :=
  elevenExpr "Sat,sun" [.name 6, .name 0] (by decide +kernel) (by decide +kernel) (by decide)

theorem normalizeCron_posix_iff_sample : weekendExpr.Kept (elevenCrate.reached weekendExpr) ∧
    ∀ t, elevenCrate.fires (normalizeCron weekendExpr.text) t ↔ elevenCrate.posixFires weekendExpr t := by
  have hkept : weekendExpr.Kept (elevenCrate.reached weekendExpr) := by
    unfold CronExpr.Kept
    rw [if_pos (.inr (by decide))]
    have hdays : ∀ day : Fin 7, day ∈ namedDays [.name 6, .name 0] ∨
        (day ∈ numberedDays [.name 6, .name 0] ↔ day + 1 ∈ numberedDays [.name 6, .name 0]) := by decide
    exact fun day _ => hdays day
  exact ⟨hkept, (normalizeCron_posix_iff elevenCrate elevenCrate_reads weekendExpr).mpr hkept⟩

/-- Eleven on Sunday, 4 January 1970: POSIX has `0` fire, the rewritten expression waits for Saturday. -/
theorem sunday_fires_on_saturday : elevenCrate.ReadsDays ∧ elevenCrate.posixFires sundayExpr 298800 ∧
    ¬ elevenCrate.fires (normalizeCron sundayExpr.text) 298800 ∧
    elevenCrate.fires (normalizeCron sundayExpr.text) 212400 := by
  refine ⟨elevenCrate_reads, ⟨⟨rfl, by decide⟩, by decide⟩, ?_, ?_⟩
  · rw [fires_normalizeCron elevenCrate_reads]
    rintro ⟨_, _, h⟩
    exact absurd h (by decide)
  · rw [fires_normalizeCron elevenCrate_reads]
    exact ⟨⟨rfl, by decide⟩, .inl rfl, by decide⟩

end PulseNull.Scheduler
