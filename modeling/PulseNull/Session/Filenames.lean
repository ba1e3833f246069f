import PulseNull.Session.Key
import PulseNull.Session.Wal

/-! When a session key can be read back from the name of its file. -/
namespace PulseNull.Session
open Text (ascii)

/-- The two digraphs a file name cannot tell from a colon do not occur. -/
def Unambiguous (key : Bytes) : Prop := ¬ [45, 45] <:+: key ∧ ¬ [45, 58] <:+: key

/-- The key comes back from the name of its WAL, which a directory can hold. -/
structure FileKey (key : Bytes) : Prop where
  unambiguous : Unambiguous key
  named : isFileName (walFilename key) = true

private theorem infix_cons_pair {a b c : UInt8} {cs : Bytes} :
    [a, b] <:+: c :: cs ↔ (c = a ∧ cs.head? = some b) ∨ [a, b] <:+: cs := by
  rw [List.infix_cons_iff]
  apply or_congr _ Iff.rfl
  rw [List.cons_prefix_cons]
  cases cs with
  | nil => simp
  | cons d ds => simp [eq_comm]

private theorem unambiguous_nil : Unambiguous [] := by simp [Unambiguous]

private theorem unambiguous_cons {c : UInt8} {cs : Bytes} :
    Unambiguous (c :: cs) ↔
      Unambiguous cs ∧ (c = 45 → cs.head? ≠ some 45 ∧ cs.head? ≠ some 58) := by
  unfold Unambiguous
  rw [infix_cons_pair, infix_cons_pair]
  tauto

private theorem decodeKey_cons {c : UInt8} {cs : Bytes} (h : c = 45 → cs.head? ≠ some 45) :
    decodeKey (c :: cs) = c :: decodeKey cs := by
  rw [decodeKey]
  rintro rest rfl rfl
  exact h rfl rfl

@[simp] theorem encodeKey_nil : encodeKey [] = [] := rfl

@[simp] theorem encodeKey_colon (cs : Bytes) : encodeKey (58 :: cs) = 45 :: 45 :: encodeKey cs := rfl

theorem encodeKey_cons {c : UInt8} (h : c ≠ 58) (cs : Bytes) :
    encodeKey (c :: cs) = c :: encodeKey cs := by
  simp [encodeKey, h]

theorem colon_not_mem_encodeKey (key : Bytes) : 58 ∉ encodeKey key := by
  intro h
  obtain ⟨c, _, hc⟩ := List.mem_flatMap.mp h
  split at hc
  · simp at hc
  · next hne => exact hne (by simpa [eq_comm] using hc)

private theorem encodeKey_head {key : Bytes} (h : (encodeKey key).head? = some 45) :
    key.head? = some 45 ∨ key.head? = some 58 := by
  cases key with
  | nil => simp at h
  | cons c cs =>
    by_cases hc : c = 58
    · exact .inr (by simp [hc])
    · rw [encodeKey_cons hc] at h
      exact .inl h

theorem decode_encode {key : Bytes} (h : Unambiguous key) : decodeKey (encodeKey key) = key := by
  induction key with
  | nil => rfl
  | cons c cs ih =>
    obtain ⟨ht, hc⟩ := unambiguous_cons.mp h
    by_cases hcol : c = 58
    · subst hcol
      rw [encodeKey_colon, decodeKey, ih ht]
    · rw [encodeKey_cons hcol, decodeKey_cons, ih ht]
      intro hdash hd
      rcases encodeKey_head hd with hd | hd
      · exact (hc hdash).1 hd
      · exact (hc hdash).2 hd

/-- The first byte of a decoded name is a dash only if the name starts with one. -/
private theorem decodeKey_head {s : Bytes} (h : s.head? ≠ some 45) :
    (decodeKey s).head? = s.head? := by
  cases s with
  | nil => rfl
  | cons c cs =>
    rw [decodeKey_cons]
    · rfl
    · rintro rfl
      exact absurd rfl h

theorem decode_unambiguous {s : Bytes} (h : 58 ∉ s) : Unambiguous (decodeKey s) := by
  induction s using decodeKey.induct with
  | case1 rest ih =>
    rw [decodeKey, unambiguous_cons]
    exact ⟨ih (fun hm => h (by simp [hm])), by simp⟩
  | case2 c cs hc ih =>
    have hne : c = 45 → cs.head? ≠ some 45 := by
      rintro rfl hd
      cases cs with
      | nil => simp at hd
      | cons d ds => exact hc ds rfl (by simpa using hd)
    rw [decodeKey_cons hne, unambiguous_cons]
    refine ⟨ih (fun hm => h (by simp [hm])), fun hdash => ?_⟩
    rw [decodeKey_head (hne hdash)]
    refine ⟨hne hdash, fun hcol => h ?_⟩
    exact List.mem_cons_of_mem _ (List.mem_of_head? hcol)
  | case3 => exact unambiguous_nil

theorem encode_decode {s : Bytes} (h : 58 ∉ s) : encodeKey (decodeKey s) = s := by
  induction s using decodeKey.induct with
  | case1 rest ih =>
    rw [decodeKey, encodeKey_colon, ih (fun hm => h (by simp [hm]))]
  | case2 c cs hc ih =>
    have hne : c = 45 → cs.head? ≠ some 45 := by
      rintro rfl hd
      cases cs with
      | nil => simp at hd
      | cons d ds => exact hc ds rfl (by simpa using hd)
    rw [decodeKey_cons hne, encodeKey_cons (fun hcol => h (by simp [hcol])),
      ih (fun hm => h (by simp [hm]))]
  | case3 => rfl

/-- Exactly the unambiguous keys come back from their file name. -/
theorem decode_encode_iff {key : Bytes} : decodeKey (encodeKey key) = key ↔ Unambiguous key := by
  refine ⟨fun h => ?_, decode_encode⟩
  rw [← h]
  exact decode_unambiguous (colon_not_mem_encodeKey key)

theorem encodeKey_injective {a b : Bytes} (ha : Unambiguous a) (hb : Unambiguous b)
    (h : encodeKey a = encodeKey b) : a = b := by
  rw [← decode_encode ha, ← decode_encode hb, h]

theorem walFilename_injective {a b : Bytes} (ha : Unambiguous a) (hb : Unambiguous b)
    (h : walFilename a = walFilename b) : a = b :=
  encodeKey_injective ha hb (List.append_cancel_right h)

theorem checkpointFilename_injective {a b : Bytes} (ha : Unambiguous a) (hb : Unambiguous b)
    (h : checkpointFilename a = checkpointFilename b) : a = b :=
  encodeKey_injective ha hb (List.append_cancel_right h)

theorem sessionFilename_injective {a b : Bytes} (ha : Unambiguous a) (hb : Unambiguous b)
    (h : sessionFilename a = sessionFilename b) : a = b :=
  encodeKey_injective ha hb (List.append_cancel_right h)

theorem stripSuffix_append (text suffix : Bytes) : stripSuffix suffix (text ++ suffix) = some text := by
  rw [stripSuffix, if_pos (by simp)]
  simp

end PulseNull.Session
