import PulseNull.Checked
import PulseNull.Text.Chars

/-! Pre-registered probe item sets: which items a run asks, and the turns that takes. -/
namespace PulseNull.Probe
open Text (ascii)

/-- SHA-256, from outside. -/
abbrev Sha256 := Bytes → { digest : Bytes // digest.length = 32 }

/-- The largest `u32`. -/
abbrev u32Max : Nat := 2^32 - 1

/-- Who answers an item. -/
inductive Arm where
  | pulse | inputOnly | fresh
  deriving DecidableEq, Repr

/-- Where an item's truth comes from. -/
inductive TruthKey where
  | pulseName | ownerName | adapter | configuredModel | servedModel | today | weekday
  | ownerLastActive | runtimeStarted | lastTaskName | lastTaskDate | tomorrow | comingFriday
  | daysAway | restartedSinceContact
  deriving DecidableEq, Repr

inductive Delivery where
  | batched | perItem
  deriving DecidableEq, Repr

structure Item where
  id : Bytes
  family : Option Bytes
  question : Bytes
  truth : TruthKey
  deriving DecidableEq

/-- A set as written in its file. -/
structure ItemSet where
  set : Bytes
  version : Nat
  delivery : Delivery
  arms : List Arm
  instructions : Bytes
  items : List Item
  deriving DecidableEq

def checkItems (set : ItemSet) : Except Bytes Unit := do
  ensure (set.items.map Item.id).Nodup (ascii "set " ++ set.set ++ ascii " repeats an item id")
  ensure (set.items ≠ [] ∧ set.arms ≠ []) (ascii "set " ++ set.set ++ ascii " has no items or no arms")
  ensure (set.delivery = .perItem → ∀ item ∈ set.items, item.family ≠ none)
    (ascii "per-item set " ++ set.set ++ ascii " has an item without a family")

/-- A set whose items are usable. -/
structure LoadedSet extends ItemSet where
  checked : checkItems toItemSet = .ok ()
  deriving DecidableEq

/-- `<set>/v<version>`. -/
def LoadedSet.label (s : LoadedSet) : Bytes := s.set ++ ascii "/v" ++ Text.decimal s.version

/-- The truths a run has: those the runtime's stores gave a value for. -/
structure Truths where
  known : List TruthKey
  deriving DecidableEq

def Truths.canScore (t : Truths) (key : TruthKey) : Bool :=
  key = .servedModel || t.known.contains key

/-- The families of a per-item set, in file order. -/
def LoadedSet.families (s : LoadedSet) : List Bytes :=
  s.items.foldl (fun families item =>
    let family := item.family.getD []
    if families.contains family then families else families ++ [family]) []

def LoadedSet.variants (s : LoadedSet) (family : Bytes) : List Item :=
  s.items.filter (·.family = some family)

def beValue (bytes : Bytes) : Nat := bytes.foldl (fun n b => 256 * n + b.toNat) 0

/-- The variant index a run's hash picks in a family of `len` variants. -/
def pick (sha256 : Sha256) (runId family : Bytes) (len : Nat) : Option Nat :=
  if len = 0 then none
  else some (beValue ((sha256 (runId ++ ascii ":" ++ family)).val.take 8) % len)

/-- The items one run asks: for a per-item set, in each family the first variant from the hash
pick onwards, around, whose truth the run has. -/
def LoadedSet.drawScorable (sha256 : Sha256) (s : LoadedSet) (runId : Bytes)
    (canScore : TruthKey → Bool) : List Item :=
  match s.delivery with
  | .batched => s.items
  | .perItem => s.families.filterMap fun family => do
    let variants := s.variants family
    let start ← pick sha256 runId family variants.length
    (variants.rotate start).find? fun item => canScore item.truth

/-- The served model is known only from the turn's own stream: the input-only arm is not asked
for it. -/
def asks (arm : Arm) (item : Item) : Bool :=
  !(arm = .inputOnly && item.truth = .servedModel)

def skipped (drawn : List Item) : Nat := drawn.countP fun item => !asks .inputOnly item

/-- Model turns asking `drawn` items. -/
def LoadedSet.turnsFor (s : LoadedSet) (drawn : List Item) : Nat :=
  match s.delivery with
  | .batched => min s.arms.length u32Max
  | .perItem =>
    let turns := s.arms.length * drawn.length
    min (if s.arms.contains .inputOnly then turns - skipped drawn else turns) u32Max

/-- The items of `set` a run asks: only those the run's truths can score. -/
def draw (sha256 : Sha256) (set : LoadedSet) (runId : Bytes) (truths : Truths) : List Item :=
  set.drawScorable sha256 runId truths.canScore

/-- Whether a family is asked at all does not depend on the seed. -/
theorem drawn_of_family (sha256 : Sha256) (s : LoadedSet) (runId family : Bytes)
    (canScore : TruthKey → Bool) :
    ((pick sha256 runId family (s.variants family).length).bind fun start =>
      ((s.variants family).rotate start).find? fun item => canScore item.truth).isSome =
    (s.variants family).any fun item => canScore item.truth := by
  unfold pick
  split
  · next h => rw [List.length_eq_zero_iff.mp h]; rfl
  · rw [Option.bind_some, Bool.eq_iff_iff, List.find?_isSome, List.any_eq_true]
    simp only [List.mem_rotate]

/-- How many items are drawn does not depend on the seed. -/
theorem drawScorable_length (sha256 : Sha256) (s : LoadedSet) (runId runId' : Bytes)
    (canScore : TruthKey → Bool) : (s.drawScorable sha256 runId canScore).length =
      (s.drawScorable sha256 runId' canScore).length := by
  unfold LoadedSet.drawScorable
  cases s.delivery with
  | batched => rfl
  | perItem =>
    simp only [List.length_filterMap_eq_countP]
    refine List.countP_congr fun family _ => ?_
    have h := drawn_of_family sha256 s runId family canScore
    have h' := drawn_of_family sha256 s runId' family canScore
    exact iff_of_eq (congrArg (· = true) (h.trans h'.symm))

end PulseNull.Probe
