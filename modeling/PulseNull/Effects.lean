import Mathlib

/-! Computations that keep a state and log what they did, and may fail; a failure keeps the log.
What one may log is a predicate on the new effects and the result. -/
namespace PulseNull.Effects
variable {σ ε ev α β : Type}

abbrev LogM (σ ε ev : Type) := ExceptT ε (StateM (σ × List ev))

def exec (m : LogM σ ε ev α) (s : σ) (log : List ev) : Except ε α × σ × List ev :=
  m.run.run (s, log)

def emit (e : ev) : LogM σ ε ev Unit := modify fun s => (s.1, s.2 ++ [e])

def current : LogM σ ε ev σ := Prod.fst <$> get

def update (f : σ → σ) : LogM σ ε ev Unit := modify fun s => (f s.1, s.2)

/-- The result of `m`, a failure included. -/
def caught (m : LogM σ ε ev α) : LogM σ ε ev (Except ε α) :=
  ExceptT.mk (Except.ok <$> m.run)

/-- Whatever state it starts in, `m` logs some `out` and gives some `r` with `P out r`. -/
def Logs (m : LogM σ ε ev α) (P : List ev → Except ε α → Prop) : Prop :=
  ∀ s log, ∃ r s' out, exec m s log = (r, s', log ++ out) ∧ P out r

variable {m : LogM σ ε ev α} {P P' : List ev → Except ε α → Prop}

theorem Logs.mono (h : Logs m P) (hp : ∀ out r, P out r → P' out r) : Logs m P' := by
  intro s log
  obtain ⟨r, s', out, he, hP⟩ := h s log
  exact ⟨r, s', out, he, hp _ _ hP⟩

theorem logs_pure {a : α} (h : P [] (.ok a)) : Logs (pure a : LogM σ ε ev α) P :=
  fun s log => ⟨.ok a, s, [], by rw [List.append_nil]; rfl, h⟩

theorem logs_throw {e : ε} (h : P [] (.error e)) : Logs (throw e : LogM σ ε ev α) P :=
  fun s log => ⟨.error e, s, [], by rw [List.append_nil]; rfl, h⟩

theorem logs_emit {e : ev} {P : List ev → Except ε Unit → Prop} (h : P [e] (.ok ())) :
    Logs (emit e : LogM σ ε ev Unit) P :=
  fun s _ => ⟨.ok (), s, [e], rfl, h⟩

theorem logs_current {P : List ev → Except ε σ → Prop} (h : ∀ s, P [] (.ok s)) :
    Logs (current : LogM σ ε ev σ) P :=
  fun s log => ⟨.ok s, s, [], by rw [List.append_nil]; rfl, h s⟩

theorem logs_update {f : σ → σ} {P : List ev → Except ε Unit → Prop} (h : P [] (.ok ())) :
    Logs (update f : LogM σ ε ev Unit) P :=
  fun s log => ⟨.ok (), f s, [], by rw [List.append_nil]; rfl, h⟩

theorem exec_bind (m : LogM σ ε ev α) (f : α → LogM σ ε ev β) (s : σ) (log : List ev) :
    exec (m >>= f) s log = match exec m s log with
      | (.ok a, s', log') => exec (f a) s' log'
      | (.error e, s', log') => (.error e, s', log') := by
  have hr : ∀ t : Except ε α × σ × List ev, m.run (s, log) = t → exec (m >>= f) s log =
      match t with
      | (.ok a, s', log') => exec (f a) s' log'
      | (.error e, s', log') => (.error e, s', log') := by
    intro t ht
    unfold exec
    rw [ExceptT.run_bind, StateT.run_bind, show m.run.run (s, log) = t from ht]
    obtain ⟨r, s', log'⟩ := t
    cases r <;> rfl
  exact hr _ rfl

/-- One computation, then another on its result: what the second may log is asked of the first. -/
theorem Logs.bind {f : α → LogM σ ε ev β} {R : List ev → Except ε β → Prop}
    (h : Logs m fun out r => match r with
      | .ok a => Logs (f a) fun out' r' => R (out ++ out') r'
      | .error e => R out (.error e)) : Logs (m >>= f) R := by
  intro s log
  obtain ⟨r, s', out, he, hP⟩ := h s log
  rw [exec_bind, he]
  cases r with
  | error e => exact ⟨.error e, s', out, rfl, hP⟩
  | ok a =>
    obtain ⟨r, t, out', he', hR⟩ := hP s' (log ++ out)
    exact ⟨r, t, out ++ out', by rw [← List.append_assoc]; exact he', hR⟩

theorem logs_emit_bind {e : ev} {f : Unit → LogM σ ε ev α}
    (h : Logs (f ()) fun out r => P (e :: out) r) : Logs (emit e >>= f) P :=
  Logs.bind (logs_emit h)

theorem logs_current_bind {f : σ → LogM σ ε ev α} (h : ∀ s, Logs (f s) P) :
    Logs (current >>= f) P :=
  Logs.bind (logs_current h)

theorem logs_update_bind {g : σ → σ} {f : Unit → LogM σ ε ev α} (h : Logs (f ()) P) :
    Logs (update g >>= f) P :=
  Logs.bind (logs_update h)

theorem Logs.caught (h : Logs m P) : Logs (caught m) fun out r => ∃ r', r = .ok r' ∧ P out r' := by
  intro s log
  obtain ⟨r, s', out, he, hP⟩ := h s log
  refine ⟨.ok r, s', out, ?_, r, rfl, hP⟩
  unfold exec at he ⊢
  change (match m.run (s, log) with | (r, t) => (Except.ok r, t)) = _
  rw [show m.run (s, log) = _ from he]

/-- What an execution from an empty log has logged. -/
theorem Logs.exec_log (h : Logs m P) (s : σ) : ∃ r, P (exec m s []).2.2 r := by
  obtain ⟨r, s', out, he, hP⟩ := h s []
  rw [he]
  exact ⟨r, hP⟩

end PulseNull.Effects
