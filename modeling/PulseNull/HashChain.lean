import Mathlib

/-! Chains of rows that name the hash of the row before, among entries that are no rows; and what a
reader notices when entries are deleted or altered. -/
namespace PulseNull.HashChain

/-- What a row names as the hash before it, and its own hash when the one it carries is right. -/
structure Link (H : Type) where
  prev : Option H
  own : Option H
  deriving DecidableEq

inductive Edit (α : Type) where
  | keep
  | delete
  | alter (a : α)

section
variable {α β : Type}

def Edit.apply (a : α) : Edit α → List α
  | .keep => [a]
  | .delete => []
  | .alter b => [b]

def Edit.map (f : α → β) : Edit α → Edit β
  | .keep => .keep
  | .delete => .delete
  | .alter a => .alter (f a)

/-- What is left of a list, each entry with its edit. -/
def edited (changes : List (α × Edit α)) : List α := changes.flatMap fun c => c.2.apply c.1

theorem edited_map (f : α → β) (changes : List (α × Edit α)) :
    edited (changes.map fun c => (f c.1, c.2.map f)) = (edited changes).map f := by
  unfold edited
  rw [List.flatMap_map, List.map_flatMap]
  congr 1
  funext c
  obtain ⟨a, e⟩ := c
  cases e <;> rfl

end

variable {H : Type}

/-- The hashes a reader comes to. -/
def passed : List (Option (Link H)) → List H
  | [] => []
  | none :: es => passed es
  | some l :: es => l.own.toList ++ passed es

theorem passed_append (es es' : List (Option (Link H))) : passed (es ++ es') = passed es ++ passed es' := by
  induction es with
  | nil => rfl
  | cons e es ih =>
    cases e with
    | none => exact ih
    | some l => rw [List.cons_append, passed, passed, ih, List.append_assoc]

theorem mem_passed {es : List (Option (Link H))} {r : H} (hr : r ∈ passed es) :
    ∃ before l after, es = before ++ some l :: after ∧ l.own = some r := by
  induction es with
  | nil => exact nomatch hr
  | cons e es ih =>
    have later (hr : r ∈ passed es) :
        ∃ before l after, e :: es = before ++ some l :: after ∧ l.own = some r := by
      obtain ⟨before, l, after, hs, ho⟩ := ih hr
      exact ⟨e :: before, l, after, by rw [hs]; rfl, ho⟩
    cases e with
    | none => exact later hr
    | some l =>
      rw [passed, List.mem_append, Option.mem_toList] at hr
      rcases hr with hr | hr
      · exact ⟨[], l, es, rfl, hr⟩
      · exact later hr

/-- An altered entry still reads as a row, or a row is kept after one that is not. -/
def Told (changes : List (Option (Link H) × Edit (Option (Link H)))) : Prop :=
  (∃ c ∈ changes, ∃ l, c.2 = .alter (some l)) ∨
    ∃ a c b d e, changes = a ++ c :: b ++ d :: e ∧ c.2 ≠ .keep ∧ d.1.isSome ∧ d.2 = .keep

theorem told_cons_keep {c : Option (Link H) × Edit (Option (Link H))}
    {changes : List (Option (Link H) × Edit (Option (Link H)))} (hc : c.2 = .keep) :
    Told (c :: changes) ↔ Told changes := by
  constructor
  · rintro (⟨c', hmem, l, hl⟩ | ⟨a, c', b, d, e, hsplit, hc', hd, hk⟩)
    · rcases List.mem_cons.mp hmem with rfl | hmem
      · exact nomatch hc.symm.trans hl
      · exact .inl ⟨c', hmem, l, hl⟩
    · cases a with
      | nil =>
        obtain ⟨rfl, -⟩ := List.cons.inj hsplit
        exact absurd hc hc'
      | cons x a =>
        obtain ⟨-, hrest⟩ := List.cons.inj hsplit
        exact .inr ⟨a, c', b, d, e, hrest, hc', hd, hk⟩
  · rintro (⟨c', hmem, hl⟩ | ⟨a, c', b, d, e, hsplit, hrest⟩)
    · exact .inl ⟨c', List.mem_cons_of_mem _ hmem, hl⟩
    · exact .inr ⟨c :: a, c', b, d, e, by rw [hsplit]; rfl, hrest⟩

theorem told_cons_changed {c : Option (Link H) × Edit (Option (Link H))}
    {changes : List (Option (Link H) × Edit (Option (Link H)))} (hc : c.2 ≠ .keep) :
    Told (c :: changes) ↔ (∃ l, c.2 = .alter (some l)) ∨
      (∃ c' ∈ changes, ∃ l, c'.2 = .alter (some l)) ∨ ∃ d ∈ changes, d.1.isSome ∧ d.2 = .keep := by
  constructor
  · rintro (⟨c', hmem, hl⟩ | ⟨a, c', b, d, e, hsplit, -, hd⟩)
    · rcases List.mem_cons.mp hmem with rfl | hmem
      · exact .inl hl
      · exact .inr (.inl ⟨c', hmem, hl⟩)
    · refine .inr (.inr ⟨d, ?_, hd⟩)
      cases a with
      | nil =>
        obtain ⟨-, hrest⟩ := List.cons.inj hsplit
        rw [hrest]
        simp
      | cons x a =>
        obtain ⟨-, hrest⟩ := List.cons.inj hsplit
        rw [hrest]
        simp
  · rintro (hl | ⟨c', hmem, hl⟩ | ⟨d, hmem, hd⟩)
    · exact .inl ⟨c, List.mem_cons_self, hl⟩
    · exact .inl ⟨c', List.mem_cons_of_mem _ hmem, hl⟩
    · obtain ⟨b, e, rfl⟩ := List.append_of_mem hmem
      exact .inr ⟨[], c, b, d, e, rfl, hc, hd⟩

variable [DecidableEq H]

/-- The hash after an entry, unless it is a row that does not verify. -/
def next (p : H) : Option (Link H) → Option H
  | none => some p
  | some l => if l.prev = some p then l.own else none

/-- The hash after all entries, unless a row does not verify. -/
def follow (p : H) : List (Option (Link H)) → Option H
  | [] => some p
  | e :: es => (next p e).bind fun q => follow q es

theorem next_row {p q : H} {l : Link H} : next p (some l) = some q ↔ l.prev = some p ∧ l.own = some q := by
  change (if l.prev = some p then l.own else none) = some q ↔ _
  split
  · next h => simp [h]
  · next h => simp [h]

theorem next_own_none {p : H} {l : Link H} (h : l.own = none) : next p (some l) = none := by
  change (if l.prev = some p then l.own else none) = none
  split
  · exact h
  · rfl

theorem follow_append {p : H} {es es' : List (Option (Link H))} :
    follow p (es ++ es') = (follow p es).bind fun q => follow q es' := by
  induction es generalizing p with
  | nil => rfl
  | cons e es ih =>
    rw [List.cons_append, follow, follow, Option.bind_assoc]
    congr 1
    funext q
    exact ih

theorem mem_of_follow {p q : H} {es : List (Option (Link H))} (h : follow p es = some q) :
    q ∈ p :: passed es := by
  induction es generalizing p with
  | nil => exact List.mem_cons.mpr (.inl (Option.some.inj h).symm)
  | cons e es ih =>
    obtain ⟨p', hp', hq⟩ := Option.bind_eq_some_iff.mp h
    cases e with
    | none =>
      obtain rfl := Option.some.inj hp'
      exact ih hq
    | some l =>
      obtain ⟨-, hown⟩ := next_row.mp hp'
      rw [passed, hown]
      exact List.mem_cons_of_mem _ (ih hq)

/-- A row names a hash the reader has come to. -/
theorem prev_mem {p q : H} {es : List (Option (Link H))} (h : follow p es = some q) {l : Link H}
    (hl : some l ∈ es) : ∃ r ∈ p :: passed es, l.prev = some r := by
  induction es generalizing p with
  | nil => exact nomatch hl
  | cons e es ih =>
    obtain ⟨p', hp', hq⟩ := Option.bind_eq_some_iff.mp h
    cases e with
    | none =>
      obtain rfl := Option.some.inj hp'
      exact ih hq (by simpa using hl)
    | some l' =>
      obtain ⟨hprev, hown⟩ := next_row.mp hp'
      rcases List.mem_cons.mp hl with heq | hl
      · obtain rfl := Option.some.inj heq
        exact ⟨p, List.mem_cons_self, hprev⟩
      · obtain ⟨r, hr, hlr⟩ := ih hq hl
        refine ⟨r, ?_, hlr⟩
        rw [passed, hown]
        exact List.mem_cons_of_mem _ hr

/-- If rows of one hash name one hash before them, and none has the first, a reader comes to no hash
twice. -/
theorem nodup_passed {p q : H} {es : List (Option (Link H))} (h : follow p es = some q)
    (hroot : ∀ l, some l ∈ es → l.own ≠ some p)
    (hinj : ∀ l l', some l ∈ es → some l' ∈ es → ∀ r, l.own = some r → l'.own = some r →
      l.prev = l'.prev) : (p :: passed es).Nodup := by
  induction es using List.reverseRecOn generalizing q with
  | nil => exact List.nodup_singleton p
  | append_singleton es e ih =>
    rw [follow_append] at h
    obtain ⟨q', hq', h⟩ := Option.bind_eq_some_iff.mp h
    have hno := ih hq' (fun l hl => hroot l (List.mem_append_left _ hl))
      (fun l l' hl hl' => hinj l l' (List.mem_append_left _ hl) (List.mem_append_left _ hl'))
    rw [passed_append]
    cases e with
    | none =>
      change (p :: (passed es ++ [])).Nodup
      rwa [List.append_nil]
    | some l =>
      have hmem : some l ∈ es ++ [some l] := List.mem_append_right _ (List.mem_singleton_self _)
      obtain ⟨q'', hl, -⟩ := Option.bind_eq_some_iff.mp h
      obtain ⟨hprev, hown⟩ := next_row.mp hl
      have hnew : passed [some l] = [q''] := by
        rw [passed, hown]
        rfl
      rw [hnew, ← List.cons_append]
      refine List.nodup_append.mpr ⟨hno, List.nodup_singleton _, ?_⟩
      intro r hr r' hr' heq
      obtain rfl : r' = q'' := List.mem_singleton.mp hr'
      subst heq
      -- the hash is new: an earlier row that has it names the same hash, at an earlier place
      rcases List.mem_cons.mp hr with rfl | hr
      · exact hroot l hmem hown
      · obtain ⟨before, l', after, hsplit, hown'⟩ := mem_passed hr
        have hmem' : some l' ∈ es ++ [some l] := by
          rw [hsplit]
          simp
        have hsame := hinj l l' hmem hmem' r hown hown'
        rw [hsplit, follow_append] at hq'
        obtain ⟨p', hp', hq'⟩ := Option.bind_eq_some_iff.mp hq'
        obtain ⟨p'', hl', hafter⟩ := Option.bind_eq_some_iff.mp hq'
        obtain ⟨hprev', hown''⟩ := next_row.mp hl'
        obtain rfl : r = p'' := Option.some.inj (hown'.symm.trans hown'')
        obtain rfl : q' = p' := by
          rw [hprev, hprev'] at hsame
          exact Option.some.inj hsame
        rw [hsplit, passed_append, passed, hown', ← List.cons_append] at hno
        exact (List.nodup_append.mp hno).2.2 _ (mem_of_follow hp') _ (mem_of_follow hafter) rfl

/-! What a reader notices. -/

/-- A reader that stands at a hash no row names notices every row. -/
theorem follow_stale {p : H} {changes : List (Option (Link H) × Edit (Option (Link H)))}
    (hprev : ∀ c ∈ changes, ∀ l, c.1 = some l → l.prev ≠ some p)
    (halter : ∀ c ∈ changes, ∀ l, c.2 = .alter (some l) → l.own = none) :
    follow p (edited changes) = none ↔
      (∃ c ∈ changes, ∃ l, c.2 = .alter (some l)) ∨ ∃ d ∈ changes, d.1.isSome ∧ d.2 = .keep := by
  induction changes with
  | nil => simp [edited, follow]
  | cons c changes ih =>
    have hih := ih (fun c' hc' => hprev c' (List.mem_cons_of_mem _ hc'))
      (fun c' hc' => halter c' (List.mem_cons_of_mem _ hc'))
    obtain ⟨e, edit⟩ := c
    have hsplit : edited ((e, edit) :: changes) = edit.apply e ++ edited changes := rfl
    rw [hsplit, follow_append, List.exists_mem_cons_iff, List.exists_mem_cons_iff]
    cases edit with
    | keep =>
      cases e with
      | none => simpa [Edit.apply, follow, next] using hih
      | some l =>
        have hne := hprev _ List.mem_cons_self l rfl
        simp [Edit.apply, follow, next, hne]
    | delete => simpa [Edit.apply, follow] using hih
    | alter e' =>
      cases e' with
      | none => simpa [Edit.apply, follow, next] using hih
      | some l =>
        have hown := halter _ List.mem_cons_self l rfl
        simp [Edit.apply, follow, next_own_none hown]

/-- What is left of a chain that verifies no longer verifies, exactly when the changes tell. -/
theorem follow_edited {p q : H} {changes : List (Option (Link H) × Edit (Option (Link H)))}
    (hclean : follow p (changes.map Prod.fst) = some q)
    (hnodup : (p :: passed (changes.map Prod.fst)).Nodup)
    (hrow : ∀ c ∈ changes, c.2 ≠ .keep → c.1.isSome)
    (halter : ∀ c ∈ changes, ∀ l, c.2 = .alter (some l) → l.own = none) :
    follow p (edited changes) = none ↔ Told changes := by
  induction changes generalizing p with
  | nil => simp [edited, follow, Told]
  | cons c changes ih =>
    have hrow' := fun c' hc' => hrow c' (List.mem_cons_of_mem c hc')
    have halter' := fun c' hc' => halter c' (List.mem_cons_of_mem c hc')
    obtain ⟨e, edit⟩ := c
    have hsplit : edited ((e, edit) :: changes) = edit.apply e ++ edited changes := rfl
    obtain ⟨p', hp', hq⟩ := Option.bind_eq_some_iff.mp hclean
    by_cases hk : edit = .keep
    · subst hk
      rw [told_cons_keep rfl, hsplit, follow_append]
      have hstep : follow p (Edit.apply e .keep) = some p' := by
        change (next p e).bind _ = _
        rw [hp']
        rfl
      rw [hstep]
      refine ih hq ?_ hrow' halter'
      cases e with
      | none =>
        obtain rfl := Option.some.inj hp'
        exact hnodup
      | some l =>
        rw [List.map_cons, passed, (next_row.mp hp').2] at hnodup
        exact (List.nodup_cons.mp hnodup).2
    · obtain ⟨l, rfl⟩ := Option.isSome_iff_exists.mp (hrow _ List.mem_cons_self hk)
      rw [List.map_cons, passed, (next_row.mp hp').2] at hnodup
      have hstale := follow_stale (p := p) (fun c hc l' hl' hprev => by
        obtain ⟨r, hr, hlr⟩ := prev_mem hq (List.mem_map.mpr ⟨c, hc, hl'⟩)
        obtain rfl : p = r := Option.some.inj (hprev.symm.trans hlr)
        exact (List.nodup_cons.mp hnodup).1 hr) halter'
      rw [told_cons_changed hk, hsplit, follow_append]
      cases edit with
      | keep => exact absurd rfl hk
      | delete => simpa [Edit.apply, follow] using hstale
      | alter e' =>
        cases e' with
        | none => simpa [Edit.apply, follow, next] using hstale
        | some l' =>
          have hown := halter _ List.mem_cons_self l' rfl
          simp [Edit.apply, follow, next_own_none hown]

end PulseNull.HashChain
