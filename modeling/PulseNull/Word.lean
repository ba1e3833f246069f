import Mathlib

/-! Unsigned 64-bit integers with checked and saturating steps. -/
namespace PulseNull

abbrev U64 := Fin (2^64)

instance u64NeZero : NeZero (2^64) := ⟨by decide⟩

instance u32NeZero : NeZero (2^32) := ⟨by decide⟩

theorem u32_lt_u64 (n : Fin (2^32)) : n.val < 2^64 := n.isLt.trans (by decide)

def U64.checkedAdd (n : U64) (k : Nat) : Option U64 :=
  if h : n.val + k < 2^64 then some ⟨n.val + k, h⟩ else none

def U64.saturatingAdd (n : U64) (k : Nat) : U64 :=
  if h : n.val + k < 2^64 then ⟨n.val + k, h⟩ else ⟨2^64 - 1, by decide⟩

def U64.saturatingSub (n : U64) (k : Nat) : U64 := ⟨n.val - k, by omega⟩

theorem U64.saturatingAdd_val {n : U64} {k : Nat} (h : n.val + k < 2^64) :
    (n.saturatingAdd k).val = n.val + k := congrArg Fin.val (dif_pos h)

theorem U64.checkedAdd_eq_some {n m : U64} {k : Nat} :
    n.checkedAdd k = some m ↔ m.val = n.val + k := by
  unfold U64.checkedAdd
  split
  · rw [Option.some.injEq, Fin.ext_iff, eq_comm]
  · have := m.isLt
    simp only [reduceCtorEq, false_iff]
    omega

theorem U64.checkedAdd_eq_none {n : U64} {k : Nat} : n.checkedAdd k = none ↔ 2^64 ≤ n.val + k := by
  unfold U64.checkedAdd
  split
  · simp only [reduceCtorEq, false_iff]
    omega
  · simp only [true_iff]
    omega

end PulseNull
