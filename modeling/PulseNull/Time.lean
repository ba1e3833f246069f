import PulseNull.Word

/-! Instants of a bounded calendar and spans, in nanoseconds. -/
namespace PulseNull.Time

def minUtc : Int := -8334601228800 * 1000000000

def maxUtc : Int := 8210266876800 * 1000000000 - 1

structure DateTime where
  nanos : Int
  lower : minUtc ≤ nanos
  upper : nanos ≤ maxUtc
  deriving DecidableEq

def DateTime.last : DateTime := ⟨maxUtc, by decide, le_rfl⟩

instance nanosNeZero : NeZero 1000000000 := ⟨by decide⟩

def DateTime.epoch : DateTime := ⟨0, by decide, by decide⟩

/-- A span that is not negative: whole seconds and the nanoseconds of the next one. -/
structure Duration where
  secs : U64
  subsec : Fin 1000000000
  deriving DecidableEq

def Duration.nanos (d : Duration) : Nat := d.secs.val * 1000000000 + d.subsec.val

/-- A signed span has at most `2^63 - 1` milliseconds. -/
def Duration.toDelta (d : Duration) : Option Int :=
  if d.nanos ≤ (2^63 - 1) * 1000000 then some d.nanos else none

def DateTime.checkedAdd (t : DateTime) (delta : Int) : Option DateTime :=
  if h : minUtc ≤ t.nanos + delta ∧ t.nanos + delta ≤ maxUtc then
    some ⟨t.nanos + delta, h.1, h.2⟩
  else none

end PulseNull.Time
