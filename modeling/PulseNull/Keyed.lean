import Mathlib

/-! Lists kept under keys and read in the order of the keys. -/
namespace PulseNull.Keyed
variable {α β κ : Type} [LinearOrder κ] {key : β → κ}

/-- The places in the order of their keys, each once. -/
abbrev Ordered (key : β → κ) (l : List β) : Prop := l.Pairwise fun a b => key a < key b

/-- The places are determined by which they are. -/
theorem Ordered.eq_of_mem_iff {l m : List β} (hl : Ordered key l) (hm : Ordered key m)
    (h : ∀ b, b ∈ l ↔ b ∈ m) : l = m := by
  have nodup {l : List β} (hl : Ordered key l) : l.Nodup :=
    hl.imp fun hlt heq => absurd (congrArg key heq) hlt.ne
  exact List.Perm.eq_of_pairwise (fun a b _ _ hab hba => absurd hba hab.not_gt) hl hm
    ((List.perm_ext_iff_of_nodup (nodup hl) (nodup hm)).mpr h)

/-- What is read, cut at one place. -/
theorem Ordered.flatMap_at {l : List β} (hl : Ordered key l) (k : β) (f : β → List α)
    (hinj : ∀ b ∈ l, key b = key k → b = k) (hk : k ∉ l → f k = []) :
    l.flatMap f = (l.filter fun b => key b < key k).flatMap f ++ f k ++
      (l.filter fun b => key k < key b).flatMap f := by
  induction l with
  | nil => simp [hk]
  | cons b l ih =>
    obtain ⟨hb, hl⟩ := List.pairwise_cons.mp hl
    rcases lt_trichotomy (key b) (key k) with hlt | heq | hgt
    · have hne : k ≠ b := fun h => absurd (h ▸ hlt) (lt_irrefl _)
      have := ih hl (fun c hc => hinj c (by simp [hc])) fun h => hk (by simp [hne, h])
      rw [List.flatMap_cons, this, List.filter_cons_of_pos (by simpa using hlt),
        List.filter_cons_of_neg (by simpa using hlt.le), List.flatMap_cons]
      simp only [List.append_assoc]
    · obtain rfl := hinj b (by simp) heq
      have hnone : (l.filter fun c => key c < key b) = [] :=
        List.filter_eq_nil_iff.mpr fun c hc => by simpa using (hb c hc).le
      have hall : (l.filter fun c => key b < key c) = l :=
        List.filter_eq_self.mpr fun c hc => by simpa using hb c hc
      rw [List.filter_cons_of_neg (by simp), List.filter_cons_of_neg (by simp), hnone, hall]
      simp
    · have hnone : (l.filter fun c => key c < key k) = [] :=
        List.filter_eq_nil_iff.mpr fun c hc => by simpa using (hgt.trans (hb c hc)).le
      have hall : (l.filter fun c => key k < key c) = l :=
        List.filter_eq_self.mpr fun c hc => by simpa using hgt.trans (hb c hc)
      have hnot : k ∉ b :: l := by
        rintro (_ | ⟨_, hm⟩)
        · exact absurd hgt (lt_irrefl _)
        · exact absurd (hgt.trans (hb k hm)) (lt_irrefl _)
      rw [List.filter_cons_of_neg (by simpa using hgt.le), List.filter_cons_of_pos (by simpa using hgt),
        hnone, hall, hk hnot]
      simp

/-- What is put at the end of one place is read last, if nothing lies in the places after it. -/
theorem Ordered.flatMap_snoc {l l' : List β} (hl : Ordered key l) (hl' : Ordered key l') {k : β}
    (hinj : ∀ b ∈ l', key b = key k → b = k) (hmem : ∀ b, b ∈ l' ↔ b ∈ l ∨ b = k)
    {f f' : β → List α} (hk : k ∉ l → f k = []) (hlast : ∀ b ∈ l, key k < key b → f b = [])
    {x : α} (hput : f' k = f k ++ [x]) (hother : ∀ b ∈ l', b ≠ k → f' b = f b) :
    l'.flatMap f' = l.flatMap f ++ [x] := by
  have same {p : β → Bool} (hp : p k = false) : l'.filter p = l.filter p := by
    refine (hl'.filter p).eq_of_mem_iff (hl.filter p) fun b => ?_
    rw [List.mem_filter, List.mem_filter, hmem b]
    constructor
    · rintro ⟨hb | rfl, hpb⟩
      · exact ⟨hb, hpb⟩
      · simp [hp] at hpb
    · exact fun h => ⟨.inl h.1, h.2⟩
  have moved {p : β → Bool} (hp : p k = false) :
      (l'.filter p).flatMap f' = (l'.filter p).flatMap f := by
    refine List.flatMap_congr fun b hb => ?_
    obtain ⟨hb, hpb⟩ := List.mem_filter.mp hb
    exact hother b hb fun h => by simp [h, hp] at hpb
  have hafter : (l.filter fun b => key k < key b).flatMap f = [] := by
    refine List.flatMap_eq_nil_iff.mpr fun b hb => ?_
    obtain ⟨hb, hlt⟩ := List.mem_filter.mp hb
    exact hlast b hb (by simpa using hlt)
  rw [hl'.flatMap_at k f' hinj fun h => absurd ((hmem k).mpr (.inr rfl)) h,
    hl.flatMap_at k f (fun b hb => hinj b ((hmem b).mpr (.inl hb))) hk, moved (by simp),
    moved (by simp), same (by simp), same (by simp), hafter, hput]
  simp

end PulseNull.Keyed
