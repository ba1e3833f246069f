import PulseNull.Probe.Paired

/-! What the rows of `facts.jsonl` make of the facts: a commitment resolves to its pair, only the
first fact of a name is ever planted, and an ask uses up every earlier offset. -/
namespace PulseNull.Probe
variable {facts : List Fact} {id : Bytes}

/-! Changing the first fact of a name. -/

theorem find_updateFact (f : Fact → Fact) (hf : ∀ x, (f x).fact = x.fact) (facts : List Fact)
    (id id' : Bytes) : (updateFact id f facts).find? (·.fact = id') =
      if id' = id then (facts.find? (·.fact = id)).map f else facts.find? (·.fact = id') := by
  induction facts with
  | nil => simp [updateFact]
  | cons x xs ih =>
    unfold updateFact
    by_cases hx : x.fact = id
    · rw [if_pos hx]
      by_cases hid : id' = id
      · subst hid
        simp [hf, hx]
      · rw [if_neg hid, List.find?_cons, List.find?_cons, hf]
        have : ¬x.fact = id' := fun h => hid (h.symm.trans hx)
        simp [this]
    · rw [if_neg hx, List.find?_cons, ih]
      by_cases hid : id' = id
      · subst hid
        simp [hx]
      · simp only [if_neg hid, List.find?_cons]

theorem map_pair_updateFact (f : Fact → Fact) (hf : ∀ x, (f x).pair = x.pair) (facts : List Fact)
    (id : Bytes) : (updateFact id f facts).map Fact.pair = facts.map Fact.pair := by
  induction facts with
  | nil => rfl
  | cons x xs ih =>
    unfold updateFact
    split
    · rw [List.map_cons, List.map_cons, hf]
    · rw [List.map_cons, List.map_cons, ih]

private theorem mem_updateFact {f : Fact → Fact} {y : Fact} (h : y ∈ updateFact id f facts) :
    y ∈ facts ∨ ∃ x ∈ facts, x.fact = id ∧ y = f x := by
  induction facts with
  | nil => cases h
  | cons x xs ih =>
    unfold updateFact at h
    split at h
    · next hx =>
      rcases List.mem_cons.mp h with rfl | h
      · exact .inr ⟨x, by simp, hx, rfl⟩
      · exact .inl (by simp [h])
    · rcases List.mem_cons.mp h with rfl | h
      · exact .inl (by simp)
      · rcases ih h with h | ⟨z, hz, hid, rfl⟩
        · exact .inl (by simp [h])
        · exact .inr ⟨z, by simp [hz], hid, rfl⟩

/-! Commitments. -/

theorem assignmentText_inj {key fact pair pair' : Bytes} {w w' : Which}
    (h : assignmentText key fact pair w = assignmentText key fact pair' w') :
    pair = pair' ∧ w = w' := by
  simp only [assignmentText, List.append_assoc, List.append_cancel_left_eq] at h
  obtain ⟨hpair, hw⟩ := List.append_inj' h rfl
  refine ⟨hpair, ?_⟩
  cases w <;> cases w' <;> first | rfl | exact absurd hw (by decide)

/-- The commitments of one fact under a pair set and its key. -/
def LoadedPairs.assignmentTexts (pairs : LoadedPairs) (fact : Bytes) : Set Bytes :=
  {t | ∃ pair ∈ pairs.pairs, ∃ w, t = assignmentText pairs.factKey fact pair.id w}

private theorem find_which {p : Which → Prop} [DecidablePred p] {w : Which} (h : p w) :
    ∃ w', [Which.a, .b].find? (fun w => p w) = some w' := by
  refine Option.isSome_iff_exists.mp (List.find?_isSome.mpr ⟨w, ?_, by simpa using h⟩)
  cases w <;> simp

/-- A draw's commitment resolves to its pair and its planted side. -/
theorem resolve_assignment {sha256 : Sha256} {pairs : LoadedPairs} {fact : Bytes} {pair : Pair}
    {planted : Which} (hsha : (pairs.assignmentTexts fact).InjOn sha256) (hp : pair ∈ pairs.pairs) :
    pairs.resolve sha256 fact (pairs.assignment sha256 fact pair.id planted) =
      some (pair.id, planted) := by
  have hone : ∀ q ∈ pairs.pairs, ∀ r, (([Which.a, .b].find? fun w =>
      pairs.assignment sha256 fact q.id w = pairs.assignment sha256 fact pair.id planted).map
        fun w => (q.id, w)) = some r → r = (pair.id, planted) := by
    intro q hq r hr
    obtain ⟨w, hw, rfl⟩ := Option.map_eq_some_iff.mp hr
    have he := List.find?_some hw
    simp only [decide_eq_true_eq] at he
    have hd := Subtype.ext (Text.hex_injective he)
    obtain ⟨hid, hw⟩ := assignmentText_inj (hsha ⟨q, hq, w, rfl⟩ ⟨pair, hp, planted, rfl⟩ hd)
    rw [hid, hw]
  unfold LoadedPairs.resolve
  obtain ⟨w, hw⟩ := find_which (w := planted) (p := fun w => pairs.assignment sha256 fact pair.id w =
    pairs.assignment sha256 fact pair.id planted) rfl
  cases hf : pairs.pairs.findSome? fun q => ([Which.a, .b].find? fun w =>
      pairs.assignment sha256 fact q.id w = pairs.assignment sha256 fact pair.id planted).map
        fun w => (q.id, w) with
  | none => simpa [hw] using List.findSome?_eq_none_iff.mp hf pair hp
  | some r =>
    obtain ⟨q, hq, hr⟩ := List.exists_of_findSome?_eq_some hf
    rw [hone q hq r hr]

/-! Only the first fact of a name is planted. -/

/-- A later fact of the same name has no value. -/
def FirstOnly (facts : List Fact) : Prop := facts.Pairwise fun x y => x.fact = y.fact → y.value = none

theorem FirstOnly.find {x : Fact} (h : FirstOnly facts) (hx : x ∈ facts) (hv : x.value.isSome) :
    facts.find? (·.fact = x.fact) = some x := by
  induction facts with
  | nil => cases hx
  | cons y ys ih =>
    obtain ⟨hy, hys⟩ := List.pairwise_cons.mp h
    rw [List.find?_cons]
    rcases List.mem_cons.mp hx with rfl | hx
    · simp
    · have hne : ¬y.fact = x.fact := fun he => by
        rw [hy x hx he] at hv
        cases hv
      simpa [hne] using ih hys hx

theorem FirstOnly.append {x : Fact} (h : FirstOnly facts) (hv : x.value = none) :
    FirstOnly (facts ++ [x]) :=
  List.pairwise_append.mpr ⟨h, List.pairwise_singleton _ _, fun _ _ y hy _ => by
    rw [List.mem_singleton.mp hy, hv]⟩

theorem FirstOnly.update {f : Fact → Fact} (hf : ∀ x, (f x).fact = x.fact) (h : FirstOnly facts) :
    FirstOnly (updateFact id f facts) := by
  induction facts with
  | nil => exact h
  | cons x xs ih =>
    obtain ⟨hx, hxs⟩ := List.pairwise_cons.mp h
    unfold updateFact
    split
    · exact List.pairwise_cons.mpr ⟨fun y hy he => hx y hy ((hf x).symm.trans he), hxs⟩
    · next hne =>
      refine List.pairwise_cons.mpr ⟨fun y hy he => ?_, ih hxs⟩
      rcases mem_updateFact hy with hy | ⟨z, hz, hid, rfl⟩
      · exact hx y hy he
      · exact absurd (he.trans ((hf z).trans hid)) hne

/-! Asked offsets. -/

/-- The offsets that are used up for a fact are kept by the rows that follow. -/
def pushAsked (offsets : List Int) (x : Fact) : Fact := { x with asked := x.asked ++ offsets }

theorem updateFact_pushAsked (offsets offsets' : List Int) (facts : List Fact) (id : Bytes) :
    updateFact id (pushAsked offsets') (updateFact id (pushAsked offsets) facts) =
      updateFact id (pushAsked (offsets ++ offsets')) facts := by
  induction facts with
  | nil => rfl
  | cons x xs ih =>
    by_cases hx : x.fact = id
    · simp [updateFact, hx, pushAsked, List.append_assoc]
    · simp [updateFact, hx, ih]

/-- The offsets each fact was asked at, in order, beside the facts the rows describe: they go up,
and an asked offset has used up every offset of the set that is not later. -/
structure Tracked (offsets : List Int) (facts : List Fact) (asked : Bytes → List Int) : Prop where
  increasing : ∀ id, (asked id).Pairwise (· < ·)
  covered : ∀ id, ∀ d ∈ asked id, d ∈ offsets ∧ ∃ x, facts.find? (·.fact = id) = some x ∧
    x.value.isSome ∧ ∀ e ∈ offsets, e ≤ d → e ∈ x.asked

/-- A fact may be asked at an offset: it is planted, the offset is not used up, and every earlier
one is or is to be passed over. -/
def Ready (offsets : List Int) (facts : List Fact) (a : Ask) : Prop :=
  ∃ x, facts.find? (·.fact = a.fact) = some x ∧ x.value.isSome ∧ a.offsetDays ∈ offsets ∧
    a.offsetDays ∉ x.asked ∧ ∀ d ∈ offsets, d < a.offsetDays → d ∈ x.asked ∨ d ∈ a.missed

variable {offsets : List Int} {asked : Bytes → List Int} {a : Ask}

/-- The facts after an ask's rows: its missed offsets and its own are used up. -/
def afterAsk (a : Ask) (facts : List Fact) : List Fact :=
  updateFact a.fact (pushAsked (a.missed ++ [a.offsetDays])) facts

theorem Tracked.ask (h : Tracked offsets facts asked) (hr : Ready offsets facts a) :
    Tracked offsets (afterAsk a facts) fun id =>
      if id = a.fact then asked id ++ [a.offsetDays] else asked id := by
  obtain ⟨x, hx, hv, hoff, hnot, hmissed⟩ := hr
  have hfind := fun id' => find_updateFact (pushAsked (a.missed ++ [a.offsetDays])) (fun _ => rfl)
    facts a.fact id'
  have hown : (afterAsk a facts).find? (·.fact = a.fact) =
      some (pushAsked (a.missed ++ [a.offsetDays]) x) := by
    rw [afterAsk, hfind, if_pos rfl, hx, Option.map_some]
  refine ⟨fun id => ?_, fun id d hd => ?_⟩
  · split
    · next hid =>
      subst hid
      refine List.pairwise_append.mpr ⟨h.increasing _, List.pairwise_singleton _ _, fun d hd e he => ?_⟩
      obtain ⟨-, y, hy, -, hc⟩ := h.covered _ d hd
      obtain rfl := Option.some.inj (hy.symm.trans hx)
      rw [List.mem_singleton.mp he]
      by_contra hle
      exact hnot (hc _ hoff (not_lt.mp hle))
    · exact h.increasing id
  · split at hd
    · next hid =>
      subst hid
      rcases List.mem_append.mp hd with hd | hd
      · obtain ⟨hmem, y, hy, hyv, hc⟩ := h.covered _ d hd
        obtain rfl := Option.some.inj (hy.symm.trans hx)
        exact ⟨hmem, _, hown, hv, fun e he hle => List.mem_append_left _ (hc e he hle)⟩
      · rw [List.mem_singleton.mp hd]
        refine ⟨hoff, _, hown, hv, fun e he hle => ?_⟩
        change e ∈ x.asked ++ (a.missed ++ [a.offsetDays])
        rcases hle.lt_or_eq with hlt | rfl
        · rcases hmissed e he hlt with hm | hm <;> simp [hm]
        · simp
    · next hid =>
      obtain ⟨hmem, y, hy, hyv, hc⟩ := h.covered id d hd
      refine ⟨hmem, y, ?_, hyv, hc⟩
      rw [afterAsk, hfind, if_neg hid]
      exact hy

/-- An ask leaves the other facts ready. -/
theorem Ready.afterAsk {b : Ask} (h : Ready offsets facts b) (hne : b.fact ≠ a.fact) :
    Ready offsets (afterAsk a facts) b := by
  obtain ⟨x, hx, hrest⟩ := h
  refine ⟨x, ?_, hrest⟩
  rw [Probe.afterAsk, find_updateFact (pushAsked _) (fun _ => rfl), if_neg hne]
  exact hx

/-- A draw or a plant asks nothing: the facts already planted stay as they are. -/
theorem Tracked.of_find (h : Tracked offsets facts asked) {facts' : List Fact}
    (hfind : ∀ id x, facts.find? (·.fact = id) = some x → x.value.isSome →
      facts'.find? (·.fact = id) = some x) : Tracked offsets facts' asked :=
  ⟨h.increasing, fun id d hd =>
    have ⟨hmem, x, hx, hv, hc⟩ := h.covered id d hd
    ⟨hmem, x, hfind id x hx hv, hv, hc⟩⟩

/-! What is due. -/

variable {pairs : LoadedPairs} {now : Utc}

private theorem dueOf_cases (x : Fact) : pairs.dueOf now x = [] ∨ ∃ planted twin chance guess,
    pairs.dueOf now x = [planted, twin, chance, guess] ∧ planted.side = .planted ∧
      twin.side ≠ .planted ∧ chance.side ≠ .planted ∧ guess.side ≠ .planted ∧ planted.fact = x.fact ∧
      x.value.isSome ∧ planted.offsetDays ∈ pairs.offsetsDays ∧ planted.offsetDays ∉ x.asked ∧
      ∀ d ∈ pairs.offsetsDays, d < planted.offsetDays → d ∈ x.asked ∨ d ∈ planted.missed := by
  unfold LoadedPairs.dueOf
  split
  · next value plantedAt pair hv hp hq =>
    dsimp only
    cases hmax : (pairs.cameDue x plantedAt now).max? with
    | none => exact .inl rfl
    | some offset =>
      have hmem := List.max?_mem hmax
      simp only [LoadedPairs.cameDue, List.mem_filter, Bool.and_eq_true, Bool.not_eq_true',
        decide_eq_true_eq, List.contains_eq_mem, decide_eq_false_iff_not] at hmem
      refine .inr ⟨_, _, _, _, rfl, rfl, by simp [LoadedPairs.ask], by simp [LoadedPairs.ask],
        by simp [LoadedPairs.ask], rfl, by simp [hv], hmem.1, hmem.2.1, fun d hd hlt => ?_⟩
      by_cases hasked : d ∈ x.asked
      · exact .inl hasked
      · -- An earlier offset has come due too.
        have hdue : plantedAt + d * dayNanos ≤ now := by
          have : d * dayNanos ≤ offset * dayNanos := Int.mul_le_mul_of_nonneg_right hlt.le (by decide)
          exact le_trans (Int.add_le_add_left this plantedAt) hmem.2.2
        refine .inr ?_
        simp only [LoadedPairs.ask, LoadedPairs.cameDue, List.mem_filter]
        exact ⟨⟨hd, by simp [hasked, hdue]⟩, decide_eq_true (show d < offset from hlt)⟩
  · exact .inl rfl

/-- Asks in fours, each led by its planted side. -/
inductive Fours : List Ask → List Ask → Prop where
  | nil : Fours [] []
  | cons {planted twin chance guess : Ask} {rest ps : List Ask} : planted.side = .planted →
      twin.side ≠ .planted → chance.side ≠ .planted → guess.side ≠ .planted → Fours rest ps →
      Fours (planted :: twin :: chance :: guess :: rest) (planted :: ps)

private theorem due_from {xs : List Fact} (hone : FirstOnly xs)
    (hfind : ∀ x ∈ xs, x.value.isSome → facts.find? (·.fact = x.fact) = some x) :
    ∃ ps, Fours (xs.flatMap (pairs.dueOf now)) ps ∧ ps.Pairwise (fun a b => b.fact ≠ a.fact) ∧
      ∀ p ∈ ps, Ready pairs.offsetsDays facts p ∧ ∃ x ∈ xs, x.fact = p.fact ∧ x.value.isSome := by
  induction xs with
  | nil => exact ⟨[], .nil, .nil, by simp⟩
  | cons x xs ih =>
    obtain ⟨hx, hxs⟩ := List.pairwise_cons.mp hone
    obtain ⟨ps, hfours, hdistinct, hready⟩ := ih hxs fun y hy => hfind y (List.mem_cons_of_mem _ hy)
    have hrest : ∀ p ∈ ps, Ready pairs.offsetsDays facts p ∧
        ∃ y ∈ x :: xs, y.fact = p.fact ∧ y.value.isSome := fun p hp =>
      have ⟨hr, y, hy, he⟩ := hready p hp
      ⟨hr, y, List.mem_cons_of_mem _ hy, he⟩
    rw [List.flatMap_cons]
    rcases dueOf_cases x with hnil |
      ⟨planted, twin, chance, guess, hfour, h1, h2, h3, h4, hfact, hv, hoff, hnot, hmissed⟩
    · rw [hnil]
      exact ⟨ps, hfours, hdistinct, hrest⟩
    · rw [hfour]
      refine ⟨planted :: ps, .cons h1 h2 h3 h4 hfours, List.pairwise_cons.mpr ⟨fun p hp he => ?_,
        hdistinct⟩, List.forall_mem_cons.mpr ⟨⟨⟨x, ?_, hv, hoff, hnot, hmissed⟩, x, by simp, hfact.symm,
        hv⟩, hrest⟩⟩
      · obtain ⟨-, y, hy, hyp, hyv⟩ := hready p hp
        rw [hx y hy (hfact.symm.trans (he.symm.trans hyp.symm))] at hyv
        cases hyv
      · rw [hfact]
        exact hfind x (by simp) hv

/-- What is due comes in fours, each of another fact that may be asked at its offset. -/
theorem due_fours (hone : FirstOnly facts) : ∃ ps, Fours (pairs.due facts now) ps ∧
    ps.Pairwise (fun a b => b.fact ≠ a.fact) ∧ ∀ p ∈ ps, Ready pairs.offsetsDays facts p := by
  obtain ⟨ps, hfours, hdistinct, hready⟩ := due_from hone fun x hx hv =>
    hone.find hx hv
  exact ⟨ps, hfours, hdistinct, fun p hp => (hready p hp).1⟩

end PulseNull.Probe
