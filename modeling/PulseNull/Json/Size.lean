import PulseNull.Json.Print

/-! Values that always have a text: no float, ASCII strings. Their text is ASCII and no longer
than a bound read off the value. -/
namespace PulseNull.Json
open Text (ascii decimal)

mutual
/-- No float, and every string and key is ASCII. -/
def Plain : Json → Prop
  | .null | .bool _ | .num (.pos _) | .num (.neg _) => True
  | .num .float => False
  | .str s => ∀ c ∈ s, c < 128
  | .arr items => PlainItems items
  | .obj members => PlainMembers members
def PlainItems : List Json → Prop
  | [] => True
  | v :: vs => Plain v ∧ PlainItems vs
def PlainMembers : List (Bytes × Json) → Prop
  | [] => True
  | (k, v) :: ms => (∀ c ∈ k, c < 128) ∧ Plain v ∧ PlainMembers ms
end

mutual
/-- A bound on the length of the text. -/
def room : Json → Nat
  | .null | .bool _ => 5
  | .num _ => 20
  | .str s => 6 * s.length + 2
  | .arr items => roomItems items + 2
  | .obj members => roomMembers members + 2
def roomItems : List Json → Nat
  | [] => 0
  | v :: vs => room v + 1 + roomItems vs
def roomMembers : List (Bytes × Json) → Nat
  | [] => 0
  | (k, v) :: ms => 6 * k.length + 2 + 1 + room v + 1 + roomMembers ms
end

/-- A text of at most `n` bytes, all ASCII. -/
structure Fits (n : Nat) (t : Bytes) : Prop where
  length : t.length ≤ n
  lt : ∀ c ∈ t, c < 128

private theorem Fits.cons {n : Nat} {t : Bytes} {c : UInt8} (h : Fits n t) (hc : c < 128) :
    Fits (n + 1) (c :: t) :=
  ⟨Nat.succ_le_succ h.length, List.forall_mem_cons.mpr ⟨hc, h.lt⟩⟩

private theorem Fits.append {n m : Nat} {t u : Bytes} (ht : Fits n t) (hu : Fits m u) :
    Fits (n + m) (t ++ u) :=
  ⟨by rw [List.length_append]; exact Nat.add_le_add ht.length hu.length,
    List.forall_mem_append.mpr ⟨ht.lt, hu.lt⟩⟩

private theorem Fits.mono {n m : Nat} {t : Bytes} (h : Fits n t) (hn : n ≤ m) : Fits m t :=
  ⟨h.length.trans hn, h.lt⟩

private theorem fits_decimal {n : Nat} (h : n < 2^64) : Fits 20 (decimal n) :=
  ⟨Text.decimal_length_le (by decide) (h.trans (by decide)),
    fun c hc => Text.isDigit_lt (Text.decimal_digits n c hc)⟩

private theorem fits_quote {s : Bytes} (h : ∀ c ∈ s, c < 128) : Fits (6 * s.length + 2) (quote s) :=
  ⟨quote_length_le s, quote_lt h⟩

private theorem fits_join : ∀ {ts : List Bytes} {ns : List Nat},
    List.Forall₂ (fun t n => Fits n t) ts ns → Fits (ns.map (· + 1)).sum (join ts)
  | [], _, .nil => ⟨Nat.le_refl 0, by simp [join]⟩
  | [t], _, .cons ht .nil => ht.mono (by simp)
  | t :: u :: ts, _, .cons (b := n) ht hts => by
    have h := (ht.append ((fits_join hts).cons (show comma < 128 by decide)))
    refine h.mono ?_
    rw [List.map_cons, List.sum_cons]
    omega

/-- Between a mark and its partner. -/
private theorem fits_between {n : Nat} {t : Bytes} {a b : UInt8} (h : Fits n t) (ha : a < 128)
    (hb : b < 128) : Fits (n + 2) (a :: (t ++ [b])) := by
  have hb : Fits 1 [b] := ⟨Nat.le_refl 1, by simpa using hb⟩
  exact (h.append hb).cons ha

mutual
theorem print_fits : ∀ {v : Json}, Plain v → ∃ t, print v = some t ∧ Fits (room v) t
  | .null, _ => ⟨_, rfl, by decide, by decide +kernel⟩
  | .bool true, _ => ⟨_, rfl, by decide, by decide +kernel⟩
  | .bool false, _ => ⟨_, rfl, by decide, by decide +kernel⟩
  | .num (.pos n), _ => ⟨_, rfl, fits_decimal n.isLt⟩
  | .num (.neg n), _ => by
    have hlen : (decimal (n.val + 1)).length ≤ 19 :=
      Text.decimal_length_le (by decide) (Nat.lt_of_le_of_lt n.isLt (by decide))
    have hd : Fits 19 (decimal (n.val + 1)) :=
      ⟨hlen, fun c hc => Text.isDigit_lt (Text.decimal_digits _ c hc)⟩
    exact ⟨_, rfl, hd.cons (by decide)⟩
  | .str s, h => ⟨_, rfl, fits_quote h⟩
  | .arr items, h => by
    obtain ⟨ts, ns, hp, hf, hn⟩ := printItems_fits h
    refine ⟨bracket ts, by rw [print, hp]; rfl, ?_⟩
    rw [room, ← hn]
    exact fits_between (fits_join hf) (by decide) (by decide)
  | .obj members, h => by
    obtain ⟨ps, ns, hp, hf, hn⟩ := printMembers_fits h
    refine ⟨brace ps, by rw [print, hp]; rfl, ?_⟩
    rw [room, ← hn]
    exact fits_between (fits_join hf) (by decide) (by decide)
theorem printItems_fits : ∀ {vs : List Json}, PlainItems vs →
    ∃ ts ns, printItems vs = some ts ∧ List.Forall₂ (fun t n => Fits n t) ts ns ∧
      (ns.map (· + 1)).sum = roomItems vs
  | [], _ => ⟨[], [], rfl, .nil, rfl⟩
  | v :: vs, h => by
    obtain ⟨t, ht, hf⟩ := print_fits h.1
    obtain ⟨ts, ns, hts, hfs, hn⟩ := printItems_fits h.2
    refine ⟨t :: ts, room v :: ns, by rw [printItems, ht, hts]; rfl, .cons hf hfs, ?_⟩
    rw [List.map_cons, List.sum_cons, hn, roomItems]
theorem printMembers_fits : ∀ {ms : List (Bytes × Json)}, PlainMembers ms →
    ∃ ps ns, printMembers ms = some ps ∧
      List.Forall₂ (fun t n => Fits n t) (ps.map printMember) ns ∧
        (ns.map (· + 1)).sum = roomMembers ms
  | [], _ => ⟨[], [], rfl, .nil, rfl⟩
  | (k, v) :: ms, h => by
    obtain ⟨t, ht, hf⟩ := print_fits h.2.1
    obtain ⟨ps, ns, hps, hfs, hn⟩ := printMembers_fits h.2.2
    refine ⟨(k, t) :: ps, (6 * k.length + 2 + (room v + 1)) :: ns,
      by rw [printMembers, ht, hps]; rfl, .cons ?_ hfs, ?_⟩
    · exact (fits_quote h.1).append (hf.cons (by decide))
    · rw [List.map_cons, List.sum_cons, hn, roomMembers]
      omega
end

end PulseNull.Json
