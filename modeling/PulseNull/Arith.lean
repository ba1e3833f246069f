import Mathlib

/-! Arithmetic of 64-bit integers. A result that does not fit is none. -/
namespace PulseNull.Arith

def addU64 (a b : Nat) : Option Nat := if a + b < 2^64 then some (a + b) else none

def subU64 (a b : Nat) : Option Nat := if b ≤ a then some (a - b) else none

def mulU64 (a b : Nat) : Option Nat := if a * b < 2^64 then some (a * b) else none

def fitI64 (n : Int) : Option Int := if -2^63 ≤ n ∧ n < 2^63 then some n else none

def addI64 (a b : Int) : Option Int := fitI64 (a + b)

def subI64 (a b : Int) : Option Int := fitI64 (a - b)

def mulI64 (a b : Int) : Option Int := fitI64 (a * b)

/-- `as u64`, which wraps. -/
def asU64 (n : Int) : Nat := (n % 2^64).toNat

/-- `as i64`, which wraps. -/
def asI64 (n : Nat) : Int := if n % 2^64 < 2^63 then (n % 2^64 : Nat) else (n % 2^64 : Nat) - 2^64

/-- A step that gives a result. -/
theorem bind_some {α β : Type} {x : Option α} {a : α} {f : α → Option β} (h : x = some a) :
    (x >>= f) = f a := by
  rw [h]
  rfl

theorem addU64_eq {a b : Nat} (h : a + b < 2^64) : addU64 a b = some (a + b) := if_pos h

theorem subU64_eq {a b : Nat} (h : b ≤ a) : subU64 a b = some (a - b) := if_pos h

theorem mulU64_eq {a b : Nat} (h : a * b < 2^64) : mulU64 a b = some (a * b) := if_pos h

theorem fitI64_eq {n : Int} (h : -2^63 ≤ n ∧ n < 2^63) : fitI64 n = some n := if_pos h

theorem fitI64_none {n : Int} (h : ¬(-2^63 ≤ n ∧ n < 2^63)) : fitI64 n = none := if_neg h

theorem asU64_eq {n : Int} (h : 0 ≤ n) (hn : n < 2^64) : asU64 n = n.toNat := by
  rw [asU64, Int.emod_eq_of_lt h hn]

theorem asI64_eq {n : Nat} (h : n < 2^63) : asI64 n = n := by
  rw [asI64, Nat.mod_eq_of_lt (h.trans (by decide)), if_pos h]

end PulseNull.Arith
