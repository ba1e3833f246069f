import PulseNull.Coordinator.Recovery

/-! Fencing: a guard at each resource rejects a token below the highest it has accepted. Over
any run of the coordinator and any writes, the tokens it grants are the order the guards keep. -/
namespace PulseNull.Coordinator
open Time (DateTime Duration)
variable {chrono : Chrono} {inRange : Bytes → Bool}

structure Rejected where
  presented : FencingToken
  highWater : FencingToken
  deriving DecidableEq

/-- The highest token a resource has accepted. -/
structure FencedResource where
  highWater : Option FencingToken
  deriving DecidableEq

def FencedResource.new : FencedResource := ⟨none⟩

/-- The same token is accepted again, a lower one is not. -/
def FencedResource.accept (g : FencedResource) (token : FencingToken) :
    FencedResource × Except Rejected Unit :=
  match g.highWater with
  | some high => if token < high then (g, .error ⟨token, high⟩) else (⟨some token⟩, .ok ())
  | none => (⟨some token⟩, .ok ())

/-- A write is fenced by a higher token, and by nothing else. -/
theorem accept_cases (g : FencedResource) (t : FencingToken) :
    (∃ high ∈ g.highWater, t < high ∧ g.accept t = (g, .error ⟨t, high⟩)) ∨
    ((∀ high ∈ g.highWater, high ≤ t) ∧ g.accept t = (⟨some t⟩, .ok ())) := by
  unfold FencedResource.accept
  cases g.highWater with
  | none => exact .inr ⟨by simp, rfl⟩
  | some high =>
    by_cases ht : t < high
    · exact .inl ⟨high, rfl, ht, if_pos ht⟩
    · exact .inr ⟨by simpa using ht, if_neg ht⟩

/-! Runs with writes. -/

inductive Event where
  | granted (resourceId holderId : Bytes) (token : FencingToken)
  | wrote (resourceId holderId : Bytes) (token : FencingToken) (accepted : Bool)
  deriving DecidableEq

/-- The coordinator, a guard at each resource, and what happened so far. A restart of the
coordinator leaves the guards. -/
structure System where
  node : Node
  guards : Bytes → FencedResource
  history : List Event

inductive Action where
  | call (op : Op)
  | write (resourceId holderId : Bytes) (token : FencingToken)

/-- What a call grants. -/
def Node.grants (chrono : Chrono) (n : Node) : Op → List Event
  | .acquire r h ttl now outcome =>
    match (n.durable.acquire chrono r h ttl now outcome).2 with
    | .ok lease => [.granted r h lease.fencingToken]
    | .error _ => []
  | .renew .. | .release .. | .restart => []

/-- A holder presents only a token it was granted. -/
def System.step (chrono : Chrono) (inRange : Bytes → Bool) (s : System) : Action → Option System
  | .call op => do
    let node ← s.node.step chrono inRange op
    return { s with node := node, history := s.history ++ s.node.grants chrono op }
  | .write r h token =>
    if .granted r h token ∈ s.history then
      let (guard, result) := (s.guards r).accept token
      some { s with
        guards := Function.update s.guards r guard
        history := s.history ++ [.wrote r h token result.isOk] }
    else some s

def System.fresh : System := ⟨.fresh, fun _ => .new, []⟩

def runSystem (chrono : Chrono) (inRange : Bytes → Bool) (actions : List Action) : Option System :=
  actions.foldlM (System.step chrono inRange) .fresh

/-- The tokens granted on a resource, oldest first. -/
def tokens (resourceId : Bytes) (history : List Event) : List FencingToken :=
  history.filterMap fun
    | .granted r _ token => if r = resourceId then some token else none
    | .wrote .. => none

/-- The grants increase, the newest grant is not rejected, and an accepted write fences every
lower token for good. -/
structure Sound (history : List Event) : Prop where
  increasing : ∀ r, (tokens r history).Pairwise (· < ·)
  newest : ∀ pre post r h t, history = pre ++ .wrote r h t false :: post →
    (tokens r pre).getLast? ≠ some t
  fenced : ∀ pre mid post r h h' t t',
    history = pre ++ .wrote r h t true :: (mid ++ .wrote r h' t' true :: post) → t ≤ t'

/-! The invariant. -/

structure System.Inv (chrono : Chrono) (inRange : Bytes → Bool) (s : System) (base : LeaseTable) :
    Prop where
  node : s.node.Inv chrono inRange base
  sound : Sound s.history
  issued : ∀ r, ∀ t ∈ tokens r s.history, ∃ w ∈ base.watermark r, t ≤ w
  seen : ∀ r, ∀ t ∈ (s.guards r).highWater, t ∈ tokens r s.history
  accepted : ∀ r h t, .wrote r h t true ∈ s.history → ∃ high ∈ (s.guards r).highWater, t ≤ high

@[simp] theorem tokens_append (r : Bytes) (a b : List Event) :
    tokens r (a ++ b) = tokens r a ++ tokens r b := List.filterMap_append ..

@[simp] theorem tokens_wrote (r r' h : Bytes) (t : FencingToken) (ok : Bool) :
    tokens r [.wrote r' h t ok] = [] := rfl

@[simp] theorem tokens_granted (r r' h : Bytes) (t : FencingToken) :
    tokens r [.granted r' h t] = if r' = r then [t] else [] := by
  simp only [tokens, List.filterMap_cons, List.filterMap_nil]
  split <;> simp_all

theorem mem_tokens {r h : Bytes} {t : FencingToken} {history : List Event}
    (hm : .granted r h t ∈ history) : t ∈ tokens r history :=
  List.mem_filterMap.mpr ⟨_, hm, if_pos rfl⟩

/-- The last event of a list, or an earlier one. -/
private theorem snoc_split {a pre post : List Event} {x y : Event}
    (h : a ++ [x] = pre ++ y :: post) :
    (post = [] ∧ a = pre ∧ x = y) ∨ ∃ post', post = post' ++ [x] ∧ a = pre ++ y :: post' := by
  rcases List.eq_nil_or_concat post with rfl | ⟨post', z, rfl⟩
  · obtain ⟨h1, h2⟩ := List.append_inj' h rfl
    exact .inl ⟨rfl, h1, List.singleton_inj.mp h2⟩
  · have h' : a ++ [x] = (pre ++ y :: post') ++ [z] := by simpa using h
    obtain ⟨h1, h2⟩ := List.append_inj' h' rfl
    obtain rfl := List.singleton_inj.mp h2
    exact .inr ⟨post', List.concat_eq_append, h1⟩

/-- A grant above all grants of its resource. -/
theorem Sound.granted {history : List Event} (h : Sound history) {r hid : Bytes} {t : FencingToken}
    (ht : ∀ t' ∈ tokens r history, t' < t) : Sound (history ++ [.granted r hid t]) := by
  refine ⟨fun r' => ?_, ?_, ?_⟩
  · rw [tokens_append, tokens_granted]
    split
    · next heq =>
      subst heq
      rw [List.pairwise_append]
      exact ⟨h.increasing r, List.pairwise_singleton _ _, by simpa using ht⟩
    · rw [List.append_nil]
      exact h.increasing r'
  · intro pre post r' h' t' heq
    rcases snoc_split heq with ⟨_, _, hx⟩ | ⟨post', _, heq⟩
    · simp at hx
    · exact h.newest _ _ _ _ _ heq
  · intro pre mid post r' h₁ h₂ t₁ t₂ heq
    rw [← List.cons_append, ← List.append_assoc] at heq
    rcases snoc_split heq with ⟨_, _, hx⟩ | ⟨post', _, heq⟩
    · simp at hx
    · rw [List.append_assoc, List.cons_append] at heq
      exact h.fenced _ _ _ _ _ _ _ _ heq

/-- A write that is accepted exactly when no higher token was. -/
theorem Sound.wrote {history : List Event} (h : Sound history) {r hid : Bytes} {t : FencingToken}
    {ok : Bool} (hno : ok = false → ∃ high ∈ tokens r history, t < high)
    (hok : ok = true → ∀ h' t', .wrote r h' t' true ∈ history → t' ≤ t) :
    Sound (history ++ [.wrote r hid t ok]) := by
  refine ⟨fun r' => ?_, ?_, ?_⟩
  · rw [tokens_append, tokens_wrote, List.append_nil]
    exact h.increasing r'
  · intro pre post r' h' t' heq
    rcases snoc_split heq with ⟨_, rfl, hx⟩ | ⟨post', _, heq⟩
    · simp only [Event.wrote.injEq] at hx
      obtain ⟨rfl, _, rfl, rfl⟩ := hx
      obtain ⟨high, hm, hlt⟩ := hno rfl
      intro hlast
      -- the last of an increasing list is its greatest
      obtain ⟨init, hi⟩ := List.getLast?_eq_some_iff.mp hlast
      have hp := h.increasing r
      rw [hi, List.pairwise_append] at hp
      rw [hi, List.mem_append, List.mem_singleton] at hm
      rcases hm with hm | rfl
      · exact absurd (hp.2.2 high hm t (by simp)) (lt_asymm hlt)
      · exact lt_irrefl _ hlt
    · exact h.newest _ _ _ _ _ heq
  · intro pre mid post r' h₁ h₂ t₁ t₂ heq
    rw [← List.cons_append, ← List.append_assoc] at heq
    rcases snoc_split heq with ⟨_, hpre, hx⟩ | ⟨post', _, heq⟩
    · simp only [Event.wrote.injEq] at hx
      obtain ⟨rfl, _, rfl, rfl⟩ := hx
      exact hok rfl h₁ t₁ (by rw [hpre]; simp)
    · rw [List.append_assoc, List.cons_append] at heq
      exact h.fenced _ _ _ _ _ _ _ _ heq

variable {s : System} {base : LeaseTable}

theorem System.fresh_inv : System.fresh.Inv chrono inRange .new :=
  ⟨Node.fresh_inv, ⟨fun _ => .nil, by simp [System.fresh], by simp [System.fresh]⟩,
    by simp [System.fresh, tokens], by simp [System.fresh, FencedResource.new],
    by simp [System.fresh]⟩

/-- A step of the coordinator that grants nothing. -/
private theorem System.Inv.quiet (h : s.Inv chrono inRange base) {n' : Node} {base' : LeaseTable}
    (hi : n'.Inv chrono inRange base') (ha : Advances base base') :
    System.Inv chrono inRange { s with node := n' } base' := by
  refine ⟨hi, h.sound, fun r t ht => ?_, h.seen, h.accepted⟩
  obtain ⟨w, hw, hle⟩ := h.issued r t ht
  obtain ⟨w', hw', hle'⟩ := ha r w hw
  exact ⟨w', hw', hle.trans hle'⟩

theorem System.Inv.call (h : s.Inv chrono inRange base) (op : Op) : ∃ s' base',
    s.step chrono inRange (.call op) = some s' ∧ s'.Inv chrono inRange base' := by
  obtain ⟨n', base', hn, hi, ha⟩ := h.node.step op
  have hquiet (hg : s.node.grants chrono op = []) : ∃ s' base',
      s.step chrono inRange (.call op) = some s' ∧ s'.Inv chrono inRange base' :=
    ⟨_, base', by simp only [System.step, hn, hg, List.append_nil]; rfl, h.quiet hi ha⟩
  cases op with
  | renew | release | restart => exact hquiet rfl
  | acquire r hid ttl now outcome =>
    cases hres : (s.node.durable.acquire chrono r hid ttl now outcome).2 with
    | error e => exact hquiet (by simp only [Node.grants, hres])
    | ok l =>
      obtain ⟨base', hi, ha, hgrant⟩ := h.node.acquire r hid ttl now outcome
      obtain ⟨hlt, hw⟩ := hgrant l hres
      have habove : ∀ t' ∈ tokens r s.history, t' < l.fencingToken := by
        intro t' ht'
        obtain ⟨w, hw, hle⟩ := h.issued r t' ht'
        exact lt_of_le_of_lt hle (hlt w hw)
      have hq := h.quiet hi ha
      refine ⟨_, base', by simp only [System.step, Node.step, Node.grants, hres]; rfl, hi,
        h.sound.granted habove, fun r' t ht => ?_, fun r' t ht => ?_, fun r' h' t ht => ?_⟩
      · rw [tokens_append, tokens_granted, List.mem_append] at ht
        rcases ht with ht | ht
        · exact hq.issued r' t ht
        · split at ht
          · next heq =>
            subst heq
            rw [List.mem_singleton.mp ht]
            exact ⟨_, hw, le_rfl⟩
          · simp at ht
      · rw [tokens_append]
        exact List.mem_append_left _ (h.seen r' t ht)
      · rcases List.mem_append.mp ht with ht | ht
        · exact h.accepted r' h' t ht
        · simp at ht

theorem System.Inv.write (h : s.Inv chrono inRange base) (r hid : Bytes) (token : FencingToken) :
    ∃ s', s.step chrono inRange (.write r hid token) = some s' ∧ s'.Inv chrono inRange base := by
  by_cases hg : Event.granted r hid token ∈ s.history
  case neg => exact ⟨s, by rw [System.step, if_neg hg], h⟩
  have htok := mem_tokens hg
  rcases accept_cases (s.guards r) token with ⟨high, hh, hlt, ha⟩ | ⟨hle, ha⟩
  · have hsound : Sound (s.history ++ [.wrote r hid token false]) :=
      h.sound.wrote (fun _ => ⟨high, h.seen r high hh, hlt⟩) (by simp)
    refine ⟨{ s with history := s.history ++ [.wrote r hid token false] }, ?_, h.node, hsound,
      fun r' t ht => ?_, fun r' t ht => ?_, fun r' h' t ht => ?_⟩
    · simp only [System.step, if_pos hg, ha, Function.update_eq_self]
      rfl
    · exact h.issued r' t (by simpa using ht)
    · simpa using h.seen r' t ht
    · exact h.accepted r' h' t (by simpa using ht)
  · have hsound : Sound (s.history ++ [.wrote r hid token true]) := by
      refine h.sound.wrote (by simp) fun _ h' t' ht' => ?_
      obtain ⟨high, hh, hle'⟩ := h.accepted r h' t' ht'
      exact hle'.trans (hle high hh)
    refine ⟨{ s with guards := Function.update s.guards r ⟨some token⟩,
                     history := s.history ++ [.wrote r hid token true] }, ?_, h.node, hsound,
      fun r' t ht => ?_, fun r' t ht => ?_, fun r' h' t ht => ?_⟩
    · simp only [System.step, if_pos hg, ha]
      rfl
    · exact h.issued r' t (by simpa using ht)
    · rw [tokens_append, tokens_wrote, List.append_nil]
      simp only [Function.update_apply] at ht
      split at ht
      · next heq =>
        obtain rfl := Option.some.inj ht
        exact heq ▸ htok
      · exact h.seen r' t ht
    · simp only [Function.update_apply]
      rw [List.mem_append, List.mem_singleton] at ht
      split
      · next heq =>
        refine ⟨token, rfl, ?_⟩
        rcases ht with ht | ht
        · obtain ⟨high, hh, hle'⟩ := h.accepted r' h' t ht
          exact hle'.trans (hle high (heq ▸ hh))
        · simp only [Event.wrote.injEq] at ht
          exact ht.2.2.1.le
      · next hne =>
        rcases ht with ht | ht
        · exact h.accepted r' h' t ht
        · simp only [Event.wrote.injEq] at ht
          exact absurd ht.1 hne

theorem System.Inv.run (h : s.Inv chrono inRange base) (actions : List Action) : ∃ s' base',
    actions.foldlM (System.step chrono inRange) s = some s' ∧ s'.Inv chrono inRange base' := by
  induction actions generalizing s base with
  | nil => exact ⟨s, base, rfl, h⟩
  | cons action actions ih =>
    have hstep : ∃ s₁ base₁, s.step chrono inRange action = some s₁ ∧
        s₁.Inv chrono inRange base₁ := by
      cases action with
      | call op => exact h.call op
      | write r hid token =>
        obtain ⟨s₁, hs, hi⟩ := h.write r hid token
        exact ⟨s₁, base, hs, hi⟩
    obtain ⟨s₁, base₁, hs, hi⟩ := hstep
    obtain ⟨s', base', hr, hi'⟩ := ih hi
    exact ⟨s', base', by rw [List.foldlM_cons, hs]; exact hr, hi'⟩

/-- Over any run of calls, failed appends, crashes and restarts, and any writes with granted
tokens: the tokens granted on a resource increase, the newest one is never rejected, and an
accepted write fences every lower token for good. -/
theorem fencing_sound (chrono : Chrono) (inRange : Bytes → Bool) (actions : List Action) :
    ∃ s, runSystem chrono inRange actions = some s ∧ Sound s.history := by
  have h₀ : System.fresh.Inv chrono inRange .new := System.fresh_inv
  obtain ⟨s, _, hr, hi⟩ := h₀.run actions
  exact ⟨s, hr, hi.sound⟩

end PulseNull.Coordinator
