import PulseNull.Text.Bytes

/-! Streams that were open at the same rows: one sweep in the order of the opens, and the pairs it is
to find. -/
namespace PulseNull.Receipts
open Text (ascii)

/-- An open and its close. -/
structure Span where
  stream : Bytes
  openSeq : Nat
  closeSeq : Nat
  start : Bytes
  finish : Bytes
  outcome : Bytes
  deriving DecidableEq

structure Overlap where
  a : Bytes
  b : Bytes
  aOutcome : Bytes
  bOutcome : Bytes
  aOpen : Bytes
  aClose : Bytes
  bOpen : Bytes
  bClose : Bytes
  quietTwin : Bool
  deriving DecidableEq

def overlapOf (left right : Span) : Overlap :=
  let (a, b) := if left.stream ≤ right.stream then (left, right) else (right, left)
  ⟨a.stream, b.stream, a.outcome, b.outcome, a.start, a.finish, b.start, b.finish,
    decide (a.outcome = ascii "acted") != decide (b.outcome = ascii "acted")⟩

/-- Open spans still inside the sweep, by their close in order. -/
structure LiveSpans where
  byClose : List (Nat × List Span)
  total : Nat
  byStream : Bytes → Nat

def LiveSpans.new : LiveSpans := ⟨[], 0, fun _ => 0⟩

/-- A span is not counted any more. -/
def LiveSpans.forget (live : LiveSpans) (span : Span) : LiveSpans :=
  { live with
    total := live.total - 1
    byStream := Function.update live.byStream span.stream (live.byStream span.stream - 1) }

/-- The first groups go, up to a close after `openSeq`. -/
def LiveSpans.expireFrom (openSeq : Nat) (live : LiveSpans) : List (Nat × List Span) → LiveSpans
  | [] => { live with byClose := [] }
  | (closeSeq, spans) :: rest =>
    if openSeq < closeSeq then { live with byClose := (closeSeq, spans) :: rest }
    else (spans.foldl LiveSpans.forget live).expireFrom openSeq rest

def LiveSpans.expire (live : LiveSpans) (openSeq : Nat) : LiveSpans :=
  live.expireFrom openSeq live.byClose

/-- Active spans on a different stream. -/
def LiveSpans.overlapsWith (live : LiveSpans) (span : Span) : Nat :=
  live.total - live.byStream span.stream

def pushAt (span : Span) : List (Nat × List Span) → List (Nat × List Span)
  | [] => [(span.closeSeq, [span])]
  | (closeSeq, spans) :: rest =>
    if span.closeSeq < closeSeq then (span.closeSeq, [span]) :: (closeSeq, spans) :: rest
    else if span.closeSeq = closeSeq then (closeSeq, spans ++ [span]) :: rest
    else (closeSeq, spans) :: pushAt span rest

def LiveSpans.insert (live : LiveSpans) (span : Span) : LiveSpans where
  byClose := pushAt span live.byClose
  total := live.total + 1
  byStream := Function.update live.byStream span.stream (live.byStream span.stream + 1)

def LiveSpans.values (live : LiveSpans) : List Span := live.byClose.flatMap (·.2)

/-- What has been shown, and how many were not. -/
structure Shown where
  shown : Nat
  truncated : Nat
  emitted : List Overlap
  deriving DecidableEq

/-- The active spans against a new one, `rest` of them on other streams. -/
def showEach (limit : Nat) (span : Span) : List Span → Nat → Shown → Shown
  | [], _, out => out
  | left :: more, rest, out =>
    if left.stream = span.stream then showEach limit span more rest out
    else if limit ≠ 0 ∧ limit ≤ out.shown then { out with truncated := out.truncated + rest }
    else showEach limit span more (rest - 1)
      { out with shown := out.shown + 1, emitted := out.emitted ++ [overlapOf left span] }

/-- Whether a span ended at or after the bound. -/
def Span.kept (bound : Option Bytes) (span : Span) : Bool := bound.all (· ≤ span.finish)

def visitSpan (bound : Option Bytes) (limit : Nat) (state : LiveSpans × Shown) (span : Span) :
    LiveSpans × Shown :=
  let live := state.1.expire span.openSeq
  let out := state.2
  let keep := span.kept bound
  let rest := if keep then live.overlapsWith span else 0
  let out :=
    if 0 < rest ∧ limit ≠ 0 ∧ limit ≤ out.shown then { out with truncated := out.truncated + rest }
    else if 0 < rest then showEach limit span live.values rest out
    else out
  (if keep then live.insert span else live, out)

/-- The overlaps shown, and how many further ones were not. `limit` 0 shows all. -/
def visitOverlaps (sinceBound : Bytes → Option Bytes) (spans : List Span) (since : Option Bytes)
    (limit : Nat) : List Overlap × Nat :=
  let bound := since.bind sinceBound
  let sorted := spans.insertionSort fun a b => a.openSeq ≤ b.openSeq
  let out := (sorted.foldl (visitSpan bound limit) (.new, ⟨0, 0, []⟩)).2
  (out.emitted, out.truncated)

/-! The pairs. -/

/-- Different streams that share a row from open up to close, neither of which ended before the
bound. -/
def Overlaps (bound : Option Bytes) (x y : Span) : Prop :=
  x.stream ≠ y.stream ∧ x.openSeq < y.closeSeq ∧ y.openSeq < x.closeSeq ∧
    x.kept bound = true ∧ y.kept bound = true

instance (bound : Option Bytes) (x y : Span) : Decidable (Overlaps bound x y) :=
  inferInstanceAs (Decidable (_ ∧ _))

/-- Each pair of overlapping spans, the one that opened first on the left. -/
def overlapPairs (bound : Option Bytes) (spans : List Span) : List (Span × Span) :=
  spans.flatMap fun y =>
    (spans.filter fun x => x.openSeq < y.openSeq ∧ Overlaps bound x y).map fun x => (x, y)

theorem mem_overlapPairs {bound : Option Bytes} {spans : List Span} {p : Span × Span} :
    p ∈ overlapPairs bound spans ↔
      p.1 ∈ spans ∧ p.2 ∈ spans ∧ p.1.openSeq < p.2.openSeq ∧ Overlaps bound p.1 p.2 := by
  obtain ⟨x, y⟩ := p
  simp only [overlapPairs, List.mem_flatMap, List.mem_map, List.mem_filter, decide_eq_true_eq]
  constructor
  · rintro ⟨y', hy, x', ⟨hx, hlt, ho⟩, heq⟩
    obtain ⟨rfl, rfl⟩ := Prod.mk.inj heq
    exact ⟨hx, hy, hlt, ho⟩
  · rintro ⟨hx, hy, hlt, ho⟩
    exact ⟨y, hy, x, ⟨hx, hlt, ho⟩, rfl⟩

theorem overlapPairs_nodup (bound : Option Bytes) {spans : List Span} (h : spans.Nodup) :
    (overlapPairs bound spans).Nodup := by
  refine List.nodup_flatMap.mpr ⟨fun y _ => ?_, ?_⟩
  · exact (h.filter _).map fun x x' he => (Prod.mk.inj he).1
  · refine h.imp fun {y y'} hne p hp hp' => ?_
    obtain ⟨x, -, rfl⟩ := List.mem_map.mp hp
    obtain ⟨x', -, he⟩ := List.mem_map.mp hp'
    exact hne (Prod.mk.inj he).2.symm

theorem overlapPairs_perm (bound : Option Bytes) {spans spans' : List Span} (h : spans.Perm spans') :
    (overlapPairs bound spans).Perm (overlapPairs bound spans') :=
  h.flatMap fun _ _ => (h.filter _).map _

/-- A span that opens last adds its pairs with the spans before. -/
theorem overlapPairs_snoc (bound : Option Bytes) {before : List Span} {span : Span}
    (h : ∀ x ∈ before, x.openSeq < span.openSeq) :
    overlapPairs bound (before ++ [span]) = overlapPairs bound before ++
      (before.filter fun x => Overlaps bound x span).map fun x => (x, span) := by
  unfold overlapPairs
  rw [List.flatMap_append]
  congr 1
  · apply List.flatMap_congr
    intro y hy
    have hlt := h y hy
    have hspan : ¬(span.openSeq < y.openSeq ∧ Overlaps bound span y) := fun hs => by omega
    simp [List.filter_append, hspan]
  · have hlast : ¬(span.openSeq < span.openSeq ∧ Overlaps bound span span) := fun hs => by omega
    simp only [List.flatMap_cons, List.flatMap_nil, List.append_nil, List.filter_append,
      List.filter_cons, hlast, decide_false, Bool.false_eq_true, if_false, List.filter_nil]
    congr 1
    apply List.filter_congr
    intro x hx
    simp [h x hx]

/-! The spans inside the sweep. -/

/-- The groups are in order, and the counts are those of the spans. -/
structure LiveSpans.Ok (live : LiveSpans) : Prop where
  sorted : live.byClose.Pairwise fun g g' => g.1 < g'.1
  keyed : ∀ g ∈ live.byClose, ∀ span ∈ g.2, span.closeSeq = g.1
  total : live.total = live.values.length
  byStream : ∀ stream, live.byStream stream = live.values.countP (·.stream = stream)

/-- The counts are those of `spans`. -/
def LiveSpans.Counts (live : LiveSpans) (spans : List Span) : Prop :=
  live.total = spans.length ∧ ∀ stream, live.byStream stream = spans.countP (·.stream = stream)

theorem LiveSpans.Counts.forget {live : LiveSpans} {span : Span} {spans : List Span}
    (h : live.Counts (span :: spans)) : (live.forget span).Counts spans := by
  refine ⟨?_, fun stream => ?_⟩
  · simp [LiveSpans.forget, h.1]
  · have hs := h.2 stream
    have hspan := h.2 span.stream
    by_cases he : stream = span.stream
    · subst he
      simp [LiveSpans.forget, hspan]
    · simp [LiveSpans.forget, Function.update_of_ne he, hs, Ne.symm he]

theorem LiveSpans.Counts.forgetAll {live : LiveSpans} {gone spans : List Span}
    (h : live.Counts (gone ++ spans)) : (gone.foldl LiveSpans.forget live).Counts spans := by
  induction gone generalizing live with
  | nil => exact h
  | cons span gone ih => exact ih h.forget

theorem LiveSpans.expireFrom_spec {openSeq : Nat} {groups : List (Nat × List Span)} {live : LiveSpans}
    (hs : groups.Pairwise fun g g' => g.1 < g'.1)
    (hk : ∀ g ∈ groups, ∀ span ∈ g.2, span.closeSeq = g.1)
    (hc : live.Counts (groups.flatMap (·.2))) :
    (live.expireFrom openSeq groups).Ok ∧ (live.expireFrom openSeq groups).values =
      (groups.flatMap (·.2)).filter fun span => openSeq < span.closeSeq := by
  induction groups generalizing live with
  | nil => exact ⟨⟨.nil, (fun _ hg => nomatch hg), hc.1, hc.2⟩, rfl⟩
  | cons g rest ih =>
    obtain ⟨closeSeq, spans⟩ := g
    obtain ⟨hfirst, hs'⟩ := List.pairwise_cons.mp hs
    obtain ⟨hkfirst, hk'⟩ := List.forall_mem_cons.mp hk
    unfold LiveSpans.expireFrom
    split
    · next hlt =>
      refine ⟨⟨hs, hk, hc.1, hc.2⟩, (List.filter_eq_self.mpr fun span hspan => ?_).symm⟩
      obtain ⟨g, hg, hmem⟩ := List.mem_flatMap.mp hspan
      have hge : closeSeq ≤ g.1 := by
        rcases List.mem_cons.mp hg with rfl | hg
        · exact le_rfl
        · exact (hfirst g hg).le
      have := hk g hg span hmem
      simp only [decide_eq_true_eq]
      omega
    · next hge =>
      obtain ⟨hok, hvalues⟩ := ih hs' hk' hc.forgetAll
      refine ⟨hok, hvalues.trans ?_⟩
      have hgone : spans.filter (fun span => openSeq < span.closeSeq) = [] := by
        refine List.filter_eq_nil_iff.mpr fun span hspan => ?_
        have := hkfirst span hspan
        simp only [decide_eq_true_eq]
        omega
      rw [List.flatMap_cons, List.filter_append, hgone, List.nil_append]

theorem LiveSpans.Ok.expire {live : LiveSpans} (h : live.Ok) (openSeq : Nat) :
    (live.expire openSeq).Ok ∧
      (live.expire openSeq).values = live.values.filter fun span => openSeq < span.closeSeq :=
  LiveSpans.expireFrom_spec h.sorted h.keyed ⟨h.total, h.byStream⟩

theorem pushAt_spec (span : Span) {groups : List (Nat × List Span)}
    (hs : groups.Pairwise fun g g' => g.1 < g'.1)
    (hk : ∀ g ∈ groups, ∀ s ∈ g.2, s.closeSeq = g.1) :
    (pushAt span groups).Pairwise (fun g g' => g.1 < g'.1) ∧
      (∀ g ∈ pushAt span groups, ∀ s ∈ g.2, s.closeSeq = g.1) ∧
      (∀ g ∈ pushAt span groups, g.1 = span.closeSeq ∨ g.1 ∈ groups.map (·.1)) ∧
      ((pushAt span groups).flatMap (·.2)).Perm (span :: groups.flatMap (·.2)) := by
  induction groups with
  | nil => simp [pushAt]
  | cons g rest ih =>
    obtain ⟨closeSeq, spans⟩ := g
    obtain ⟨hfirst, hs'⟩ := List.pairwise_cons.mp hs
    obtain ⟨hkfirst, hk'⟩ := List.forall_mem_cons.mp hk
    unfold pushAt
    split
    · next hlt =>
      refine ⟨List.pairwise_cons.mpr ⟨fun g hg => ?_, hs⟩, ?_, ?_, .refl _⟩
      · rcases List.mem_cons.mp hg with rfl | hg
        · exact hlt
        · exact hlt.trans (hfirst g hg)
      · exact List.forall_mem_cons.mpr ⟨by simp, hk⟩
      · intro g hg
        rcases List.mem_cons.mp hg with rfl | hg
        · exact .inl rfl
        · exact .inr (List.mem_map_of_mem hg)
    · split
      · next heq =>
        refine ⟨List.pairwise_cons.mpr ⟨hfirst, hs'⟩, ?_, ?_, ?_⟩
        · refine List.forall_mem_cons.mpr ⟨fun s hs => ?_, hk'⟩
          rcases List.mem_append.mp hs with hs | hs
          · exact hkfirst s hs
          · exact List.mem_singleton.mp hs ▸ heq
        · intro g hg
          rcases List.mem_cons.mp hg with rfl | hg
          · exact .inl heq.symm
          · exact .inr (List.mem_map_of_mem (List.mem_cons_of_mem _ hg))
        · simp only [List.flatMap_cons, List.append_assoc, List.singleton_append]
          exact List.perm_middle
      · next hge hne =>
        obtain ⟨hpair, hkeys, hfrom, hperm⟩ := ih hs' hk'
        refine ⟨List.pairwise_cons.mpr ⟨fun g hg => ?_, hpair⟩,
          List.forall_mem_cons.mpr ⟨hkfirst, hkeys⟩, ?_, ?_⟩
        · rcases hfrom g hg with heq | hmem
          · change closeSeq < g.1
            omega
          · obtain ⟨g', hg', heq⟩ := List.mem_map.mp hmem
            exact heq ▸ hfirst g' hg'
        · intro g hg
          rcases List.mem_cons.mp hg with rfl | hg
          · exact .inr List.mem_cons_self
          · exact (hfrom g hg).imp_right (List.mem_cons_of_mem _)
        · simp only [List.flatMap_cons]
          exact (hperm.append_left spans).trans List.perm_middle

theorem LiveSpans.Ok.insert {live : LiveSpans} (h : live.Ok) (span : Span) :
    (live.insert span).Ok ∧ (live.insert span).values.Perm (span :: live.values) := by
  obtain ⟨hpair, hkeys, -, hperm⟩ := pushAt_spec span h.sorted h.keyed
  refine ⟨⟨hpair, hkeys, ?_, fun stream => ?_⟩, hperm⟩
  · exact (congrArg (· + 1) h.total).trans hperm.length_eq.symm
  · refine Eq.trans ?_ (hperm.countP_eq _).symm
    have hs := h.byStream stream
    have hspan := h.byStream span.stream
    by_cases he : stream = span.stream
    · subst he
      simpa [LiveSpans.insert, LiveSpans.values] using hspan
    · simpa [LiveSpans.insert, LiveSpans.values, Function.update_of_ne he, Ne.symm he] using hs

theorem LiveSpans.Ok.overlapsWith {live : LiveSpans} (h : live.Ok) (span : Span) :
    live.overlapsWith span = (live.values.filter fun x => x.stream ≠ span.stream).length := by
  have hsplit := List.length_eq_countP_add_countP (l := live.values)
    fun x : Span => x.stream = span.stream
  rw [LiveSpans.overlapsWith, h.total, h.byStream, ← List.countP_eq_length_filter]
  simp only [decide_eq_true_eq, decide_not] at hsplit ⊢
  omega

/-! What is shown. -/

/-- The active spans on other streams. -/
def others (span : Span) (spans : List Span) : List Span := spans.filter fun x => x.stream ≠ span.stream

/-- How many of `rest` further overlaps are shown. -/
def Shown.room (out : Shown) (limit rest : Nat) : Nat :=
  if limit = 0 then rest else min rest (limit - out.shown)

/-- The first overlaps are shown as far as there is room, and the rest is counted. -/
def Shown.extend (out : Shown) (limit : Nat) (span : Span) (found : List Span) : Shown where
  shown := out.shown + out.room limit found.length
  truncated := out.truncated + (found.length - out.room limit found.length)
  emitted := out.emitted ++
    (found.take (out.room limit found.length)).map fun x => overlapOf x span

theorem showEach_eq (limit : Nat) (span : Span) (spans : List Span) (out : Shown) :
    showEach limit span spans (others span spans).length out =
      out.extend limit span (others span spans) := by
  induction spans generalizing out with
  | nil => simp [showEach, others, Shown.extend, Shown.room]
  | cons left more ih =>
    unfold showEach
    by_cases hs : left.stream = span.stream
    · have hothers : others span (left :: more) = others span more := by simp [others, hs]
      rw [if_pos hs, hothers]
      exact ih out
    · have hothers : others span (left :: more) = left :: others span more := by simp [others, hs]
      rw [if_neg hs, hothers]
      split
      · next hfull =>
        have hroom : ∀ rest, out.room limit rest = 0 := by
          intro rest
          rw [Shown.room, if_neg hfull.1]
          omega
        simp [Shown.extend, hroom]
      · next hfree =>
        have hroom : out.room limit (left :: others span more).length =
            ({ out with
              shown := out.shown + 1
              emitted := out.emitted ++ [overlapOf left span] } : Shown).room limit
              (others span more).length + 1 := by
          simp only [Shown.room, List.length_cons]
          split
          · rfl
          · omega
        rw [List.length_cons, Nat.add_sub_cancel, ih]
        unfold Shown.extend
        rw [hroom]
        simp only [List.length_cons, List.take_succ_cons, List.map_cons, List.append_assoc,
          List.singleton_append, Shown.mk.injEq, and_true]
        omega

/-- One span: it is shown with the active spans on other streams, if it is kept. -/
theorem visitSpan_eq (bound : Option Bytes) (limit : Nat) {live : LiveSpans} (h : live.Ok)
    (out : Shown) (span : Span) :
    (visitSpan bound limit (live, out) span).2 = out.extend limit span
      (if span.kept bound then others span (live.expire span.openSeq).values else []) := by
  have hnone : out.extend limit span [] = out := by simp [Shown.extend, Shown.room]
  unfold visitSpan
  dsimp only
  cases span.kept bound with
  | false => simp [hnone]
  | true =>
    have hrest : (live.expire span.openSeq).overlapsWith span =
        (others span (live.expire span.openSeq).values).length :=
      (h.expire span.openSeq).1.overlapsWith span
    simp only [if_true, hrest]
    by_cases hfull : 0 < (others span (live.expire span.openSeq).values).length ∧ limit ≠ 0 ∧
        limit ≤ out.shown
    · have hroom : ∀ rest, out.room limit rest = 0 := by
        intro rest
        rw [Shown.room, if_neg hfull.2.1]
        omega
      rw [if_pos hfull]
      simp [Shown.extend, hroom]
    · rw [if_neg hfull]
      split
      · exact showEach_eq limit span _ out
      · next hzero =>
        rw [List.length_pos_iff, not_not] at hzero
        rw [hzero, hnone]

/-! The sweep. -/

/-- The sweep has seen `before`: it shows the first pairs, counts the others, and holds the spans that
are kept and close later. -/
structure Swept (bound : Option Bytes) (limit : Nat) (before : List Span) (live : LiveSpans)
    (out : Shown) : Prop where
  ok : live.Ok
  values : ∃ row, (row = 0 ∨ ∃ x ∈ before, x.openSeq = row) ∧
    live.values.Perm (before.filter fun x => x.kept bound ∧ row < x.closeSeq)
  pairs : ∃ pairs : List (Span × Span), out.emitted = pairs.map (fun p => overlapOf p.1 p.2) ∧
    pairs.Subperm (overlapPairs bound before) ∧ pairs.length = out.shown
  count : out.shown + out.truncated = (overlapPairs bound before).length
  limit : if limit = 0 then out.truncated = 0
    else out.shown = min limit (overlapPairs bound before).length

theorem Swept.start (bound : Option Bytes) (limit : Nat) : Swept bound limit [] .new ⟨0, 0, []⟩ where
  ok := ⟨.nil, (fun _ hg => nomatch hg), rfl, fun _ => rfl⟩
  values := ⟨0, .inl rfl, .refl _⟩
  pairs := ⟨[], rfl, .refl _, rfl⟩
  count := rfl
  limit := by split <;> simp [overlapPairs]

theorem Swept.step {bound : Option Bytes} {limit : Nat} {before : List Span} {live : LiveSpans}
    {out : Shown} {span : Span} (h : Swept bound limit before live out)
    (hbefore : ∀ x ∈ before, x.openSeq < span.openSeq) (hspan : span.openSeq < span.closeSeq) :
    Swept bound limit (before ++ [span]) (visitSpan bound limit (live, out) span).1
      (visitSpan bound limit (live, out) span).2 := by
  obtain ⟨row, hrow, hvalues⟩ := h.values
  obtain ⟨hok, hexpired⟩ := h.ok.expire span.openSeq
  have hle : row ≤ span.openSeq := by
    rcases hrow with rfl | ⟨x, hx, rfl⟩
    · exact Nat.zero_le _
    · exact (hbefore x hx).le
  -- The active spans are those kept that close after the new open.
  have hactive : (live.expire span.openSeq).values.Perm
      (before.filter fun x => x.kept bound ∧ span.openSeq < x.closeSeq) := by
    rw [hexpired]
    refine (hvalues.filter _).trans (List.Perm.of_eq ?_)
    rw [List.filter_filter]
    apply List.filter_congr
    intro x hx
    simp only [← Bool.decide_and, decide_eq_decide]
    exact ⟨fun ⟨hopen, hkept, _⟩ => ⟨hkept, hopen⟩, fun ⟨hkept, hopen⟩ => ⟨hopen, hkept, hle.trans_lt hopen⟩⟩
  -- On other streams they are the spans that overlap the new one, if it is kept.
  have hfound : (if span.kept bound then others span (live.expire span.openSeq).values else []).Perm
      (before.filter fun x => Overlaps bound x span) := by
    split
    · next hkept =>
      refine (hactive.filter _).trans (List.Perm.of_eq ?_)
      rw [List.filter_filter]
      apply List.filter_congr
      intro x hx
      simp only [← Bool.decide_and, decide_eq_decide]
      have hlt := (hbefore x hx).trans hspan
      exact ⟨fun ⟨hs, hk, hc⟩ => ⟨hs, hlt, hc, hk, hkept⟩, fun ⟨hs, _, hc, hk, _⟩ => ⟨hs, hk, hc⟩⟩
    · next hkept =>
      refine List.Perm.of_eq (List.filter_eq_nil_iff.mpr fun x _ ho => ?_).symm
      exact hkept (of_decide_eq_true ho).2.2.2.2
  generalize hnew : (if span.kept bound then others span (live.expire span.openSeq).values else []) =
    found at hfound
  have hout := visitSpan_eq bound limit h.ok out span
  rw [hnew] at hout
  rw [hout]
  have hpairs := overlapPairs_snoc bound hbefore
  have hlen : (overlapPairs bound (before ++ [span])).length =
      (overlapPairs bound before).length + found.length := by
    rw [hpairs, List.length_append, List.length_map, hfound.length_eq]
  have hroom : out.room limit found.length ≤ found.length := by
    unfold Shown.room
    split
    · exact le_rfl
    · exact min_le_left _ _
  obtain ⟨pairs, hemitted, hsub, hshown⟩ := h.pairs
  have hcount := h.count
  have hlimit := h.limit
  refine ⟨?_, ⟨span.openSeq, .inr ⟨span, by simp, rfl⟩, ?_⟩,
    ⟨pairs ++ (found.take (out.room limit found.length)).map fun x => (x, span), ?_, ?_, ?_⟩, ?_, ?_⟩
  · unfold visitSpan
    dsimp only
    split
    · exact (hok.insert span).1
    · exact hok
  · unfold visitSpan
    dsimp only
    rw [List.filter_append]
    split
    · next hkept =>
      have hself : [span].filter (fun x => x.kept bound ∧ span.openSeq < x.closeSeq) = [span] := by
        simp [hkept, hspan]
      rw [hself]
      exact ((hok.insert span).2.trans (hactive.cons span)).trans
        (List.perm_append_singleton span _).symm
    · next hkept =>
      have hself : [span].filter (fun x => x.kept bound ∧ span.openSeq < x.closeSeq) = [] := by
        simp [hkept]
      rw [hself, List.append_nil]
      exact hactive
  · simp [Shown.extend, hemitted, Function.comp_def]
  · rw [hpairs]
    refine hsub.append ?_
    exact ((List.take_sublist _ _).map _).subperm.trans (hfound.map _).subperm
  · simp only [Shown.extend, List.length_append, List.length_map, List.length_take, hshown,
      min_eq_left hroom]
  · rw [hlen]
    simp only [Shown.extend]
    omega
  · rw [hlen]
    simp only [Shown.extend, Shown.room] at hroom ⊢
    split at hlimit
    · next hz =>
      rw [if_pos hz] at hroom ⊢
      rw [if_pos hz]
      omega
    · next hz =>
      rw [if_neg hz] at hroom ⊢
      rw [if_neg hz]
      omega

theorem Swept.run {bound : Option Bytes} {limit : Nat} {before later : List Span}
    (state : LiveSpans × Shown) (h : Swept bound limit before state.1 state.2)
    (hsorted : (before ++ later).Pairwise fun x y => x.openSeq < y.openSeq)
    (hspan : ∀ x ∈ later, x.openSeq < x.closeSeq) :
    Swept bound limit (before ++ later) (later.foldl (visitSpan bound limit) state).1
      (later.foldl (visitSpan bound limit) state).2 := by
  induction later generalizing before state with
  | nil => simpa using h
  | cons span later ih =>
    obtain ⟨hself, hlater⟩ := List.forall_mem_cons.mp hspan
    have hbefore : ∀ x ∈ before, x.openSeq < span.openSeq := fun x hx =>
      (List.pairwise_append.mp hsorted).2.2 x hx span List.mem_cons_self
    have happend : before ++ span :: later = before ++ [span] ++ later := by simp
    rw [happend] at hsorted ⊢
    exact ih _ (h.step hbefore hself) hsorted hlater

/-- The sweep shows each pair of overlapping spans at most once, as many as the limit allows, and
returns how many it did not show. -/
theorem visitOverlaps_pairs (sinceBound : Bytes → Option Bytes) (spans : List Span)
    (since : Option Bytes) (limit : Nat) (hdistinct : (spans.map Span.openSeq).Nodup)
    (hspans : ∀ x ∈ spans, x.openSeq < x.closeSeq) :
    let all := overlapPairs (since.bind sinceBound) spans
    let out := visitOverlaps sinceBound spans since limit
    all.Nodup ∧ (∃ pairs : List (Span × Span), out.1 = pairs.map (fun p => overlapOf p.1 p.2) ∧
      pairs.Nodup ∧ pairs ⊆ all) ∧
      out.1.length = (if limit = 0 then all.length else min limit all.length) ∧
      out.2 = all.length - out.1.length := by
  intro all out
  have hperm := List.perm_insertionSort (fun a b : Span => a.openSeq ≤ b.openSeq) spans
  have hsorted : (spans.insertionSort fun a b => a.openSeq ≤ b.openSeq).Pairwise
      fun x y => x.openSeq < y.openSeq := by
    have hle := List.pairwise_insertionSort (fun a b : Span => a.openSeq ≤ b.openSeq) spans
    have hne : (spans.insertionSort fun a b => a.openSeq ≤ b.openSeq).Pairwise
        fun x y => x.openSeq ≠ y.openSeq :=
      List.pairwise_map.mp ((hperm.map Span.openSeq).nodup_iff.mpr hdistinct)
    exact (hle.and hne).imp fun ⟨hle, hne⟩ => lt_of_le_of_ne hle hne
  have hvisit : out =
      (((spans.insertionSort fun a b => a.openSeq ≤ b.openSeq).foldl
        (visitSpan (since.bind sinceBound) limit) (.new, ⟨0, 0, []⟩)).2.emitted,
      ((spans.insertionSort fun a b => a.openSeq ≤ b.openSeq).foldl
        (visitSpan (since.bind sinceBound) limit) (.new, ⟨0, 0, []⟩)).2.truncated) := rfl
  clear_value out
  subst hvisit
  generalize (spans.insertionSort fun a b => a.openSeq ≤ b.openSeq) = sorted at hperm hsorted
  have hswept := Swept.run (.new, ⟨0, 0, []⟩) (Swept.start (since.bind sinceBound) limit) hsorted
    fun x hx => hspans x (hperm.mem_iff.mp hx)
  rw [List.nil_append] at hswept
  obtain ⟨pairs, hemitted, hsub, hshown⟩ := hswept.pairs
  have hall : (overlapPairs (since.bind sinceBound) sorted).Perm all := overlapPairs_perm _ hperm
  have hnodup : all.Nodup := overlapPairs_nodup _ hdistinct.of_map
  have hcount := hswept.count
  have hlimit := hswept.limit
  rw [hall.length_eq] at hcount hlimit
  refine ⟨hnodup, ⟨pairs, hemitted, ?_, fun p hp => hall.subset (hsub.subset hp)⟩, ?_, ?_⟩
  · obtain ⟨l, hl, hsublist⟩ := hsub
    exact hl.nodup_iff.mp (hsublist.nodup (hall.nodup_iff.mpr hnodup))
  · rw [hemitted, List.length_map, hshown]
    split at hlimit
    · next hz =>
      rw [if_pos hz]
      omega
    · next hz =>
      rw [if_neg hz]
      exact hlimit
  · rw [hemitted, List.length_map, hshown, ← hcount, Nat.add_sub_cancel_left]

/-- Two streams that overlap at one row each, and one that opens where the first closes. -/
def sampleSpans : List Span :=
  [⟨ascii "a", 1, 4, ascii "t1", ascii "t4", ascii "acted"⟩,
    ⟨ascii "b", 2, 6, ascii "t2", ascii "t6", ascii "silent"⟩,
    ⟨ascii "c", 4, 8, ascii "t4", ascii "t8", ascii "acted"⟩]

theorem visitOverlaps_pairs_sample :
    (overlapPairs none sampleSpans).length = 2 ∧
      (visitOverlaps some sampleSpans none 1).1.length = 1 ∧
      (visitOverlaps some sampleSpans none 1).2 = 1 := by
  have hpairs : (overlapPairs none sampleSpans).length = 2 := by decide +kernel
  obtain ⟨-, -, hlength, htruncated⟩ :=
    visitOverlaps_pairs some sampleSpans none 1 (by decide +kernel) (by decide +kernel)
  simp only [Option.bind_none, hpairs] at hlength htruncated
  rw [htruncated, hlength]
  exact ⟨hpairs, rfl, rfl⟩

end PulseNull.Receipts
