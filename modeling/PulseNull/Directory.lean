import PulseNull.Text.Bytes

/-! A directory of names over files, with the calls that open, write, rename and remove; an open
file is the file, whatever name it has. -/
namespace PulseNull

structure Directory (Name : Type) where
  entry : Name → Option ℕ
  data : ℕ → Bytes
  next : ℕ

namespace Directory
variable {Name : Type} {d : Directory Name} {name other : Name} {file : ℕ}

def read (d : Directory Name) (name : Name) : Option Bytes := (d.entry name).map d.data

section
variable [DecidableEq Name]

/-- Opens the file for writing: cut to nothing, or made. -/
def openTrunc (d : Directory Name) (name : Name) : ℕ × Directory Name :=
  match d.entry name with
  | some file => (file, { d with data := Function.update d.data file [] })
  | none => (d.next, ⟨Function.update d.entry name (some d.next),
      Function.update d.data d.next [], d.next + 1⟩)

/-- Puts a chunk at a place of a file; a gap before it reads as zeros. -/
def overwrite (bytes : Bytes) (offset : ℕ) (chunk : Bytes) : Bytes :=
  bytes.take offset ++ List.replicate (offset - bytes.length) 0 ++ chunk ++
    bytes.drop (offset + chunk.length)

def writeAt (d : Directory Name) (file offset : ℕ) (chunk : Bytes) : Directory Name :=
  { d with data := Function.update d.data file (overwrite (d.data file) offset chunk) }

/-- The target's name goes over to the source's file. -/
def rename (d : Directory Name) (source target : Name) : Option (Directory Name) :=
  (d.entry source).map fun file =>
    { d with entry := Function.update (Function.update d.entry source none) target (some file) }

def remove (d : Directory Name) (name : Name) : Directory Name :=
  { d with entry := Function.update d.entry name none }

end

/-- Every name has a file of its own, and a new file is none of these. -/
structure Sound (d : Directory Name) : Prop where
  lt : ∀ name file, d.entry name = some file → file < d.next
  inj : ∀ name other file, d.entry name = some file → d.entry other = some file → name = other

theorem Sound.ne (h : d.Sound) (hn : d.entry name = some file) (hne : other ≠ name) :
    d.entry other ≠ some file :=
  fun ho => hne (h.inj _ _ _ ho hn)

/-- What is done to a file is not seen under a name that it does not have. -/
theorem read_update (bytes : Bytes) (hne : d.entry name ≠ some file) :
    read { d with data := Function.update d.data file bytes } name = d.read name := by
  unfold read
  cases he : d.entry name with
  | none => rfl
  | some f =>
    have hf : f ≠ file := fun heq => hne (heq ▸ he)
    simp [Function.update_of_ne hf]

variable [DecidableEq Name]

private theorem entry_update {entry : Name → Option ℕ} {value : Option ℕ}
    (h : Function.update entry name value other = some file) :
    other = name ∧ value = some file ∨ other ≠ name ∧ entry other = some file := by
  by_cases heq : other = name
  · rw [heq, Function.update_self] at h
    exact .inl ⟨heq, h⟩
  · rw [Function.update_of_ne heq] at h
    exact .inr ⟨heq, h⟩

theorem read_openTrunc (h : d.Sound) (hne : other ≠ name) :
    (d.openTrunc name).2.read other = d.read other := by
  unfold openTrunc
  split
  · next file he => exact read_update [] (h.ne he hne)
  · simp only [read, Function.update_of_ne hne]
    cases ho : d.entry other with
    | none => rfl
    | some f => simp [Function.update_of_ne (h.lt other f ho).ne]

theorem openTrunc_entry (d : Directory Name) (name : Name) :
    (d.openTrunc name).2.entry name = some (d.openTrunc name).1 := by
  unfold openTrunc
  split
  · assumption
  · exact Function.update_self ..

theorem openTrunc_data (d : Directory Name) (name : Name) :
    (d.openTrunc name).2.data (d.openTrunc name).1 = [] := by
  unfold openTrunc
  split <;> exact Function.update_self ..

theorem Sound.openTrunc (h : d.Sound) (name : Name) : (d.openTrunc name).2.Sound := by
  unfold Directory.openTrunc
  split
  · exact ⟨h.lt, h.inj⟩
  · refine ⟨fun n f hf => ?_, fun n m f hn hm => ?_⟩
    · rcases entry_update hf with ⟨-, hv⟩ | ⟨-, he⟩
      · obtain rfl := Option.some.inj hv
        exact Nat.lt_succ_self _
      · exact Nat.lt_succ_of_lt (h.lt n f he)
    · rcases entry_update hn with ⟨rfl, hv⟩ | ⟨-, he⟩ <;> rcases entry_update hm with ⟨rfl, hw⟩ | ⟨-, hf⟩
      · rfl
      · obtain rfl := Option.some.inj hv
        exact absurd (h.lt m _ hf) (lt_irrefl _)
      · obtain rfl := Option.some.inj hw
        exact absurd (h.lt n _ he) (lt_irrefl _)
      · exact h.inj n m f he hf

omit [DecidableEq Name] in
theorem Sound.writeAt (h : d.Sound) (file offset : ℕ) (chunk : Bytes) :
    (d.writeAt file offset chunk).Sound :=
  ⟨h.lt, h.inj⟩

theorem Sound.rename {source target : Name} {d' : Directory Name} (h : d.Sound)
    (hr : d.rename source target = some d') : d'.Sound := by
  obtain ⟨file, hs, rfl⟩ := Option.map_eq_some_iff.mp hr
  have hentry : ∀ n f, Function.update (Function.update d.entry source none) target (some file) n =
      some f → d.entry n = some f ∧ n ≠ target ∧ n ≠ source ∨ n = target ∧ f = file := by
    intro n f hf
    rcases entry_update hf with ⟨ht, hv⟩ | ⟨ht, he⟩
    · exact .inr ⟨ht, (Option.some.inj hv).symm⟩
    · rcases entry_update he with ⟨-, hv⟩ | ⟨hn, he⟩
      · cases hv
      · exact .inl ⟨he, ht, hn⟩
  refine ⟨fun n f hf => ?_, fun n m f hn hm => ?_⟩
  · rcases hentry n f hf with ⟨he, -, -⟩ | ⟨-, rfl⟩
    · exact h.lt n f he
    · exact h.lt source f hs
  · rcases hentry n f hn with ⟨hen, -, hns⟩ | ⟨hnt, hf⟩ <;>
      rcases hentry m f hm with ⟨hem, -, hms⟩ | ⟨hmt, hf⟩
    · exact h.inj n m f hen hem
    · exact absurd (h.inj n source f hen (hf ▸ hs)) hns
    · exact absurd (h.inj m source f hem (hf ▸ hs)) hms
    · exact hnt.trans hmt.symm

theorem Sound.remove (h : d.Sound) (name : Name) : (d.remove name).Sound := by
  have hentry : ∀ n f, Function.update d.entry name none n = some f → d.entry n = some f := by
    intro n f hf
    rcases entry_update hf with ⟨-, hv⟩ | ⟨-, he⟩
    · cases hv
    · exact he
  exact ⟨fun n f hf => h.lt n f (hentry n f hf),
    fun n m f hn hm => h.inj n m f (hentry n f hn) (hentry m f hm)⟩

theorem read_rename {source target : Name} {d' : Directory Name} (hr : d.rename source target = some d') :
    d'.read target = d.read source := by
  obtain ⟨file, hs, rfl⟩ := Option.map_eq_some_iff.mp hr
  simp [read, hs]

theorem read_remove (hne : other ≠ name) : (d.remove name).read other = d.read other := by
  simp [read, remove, Function.update_of_ne hne]

/-- The next chunk at the end of what is there. -/
theorem overwrite_append {bytes chunk : Bytes} : overwrite bytes bytes.length chunk = bytes ++ chunk := by
  simp [overwrite]

end Directory
end PulseNull
