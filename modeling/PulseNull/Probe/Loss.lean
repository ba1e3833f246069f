import PulseNull.Probe.ChainFile

/-! Which losses a record file tells: a file as appends leave it, some of its rows deleted or
altered, and what the reader and the gate make of it. -/
namespace PulseNull.Probe
open Text (ascii newline)
open HashChain (Edit Link edited)

/-! Lines. -/

/-- Lines that a file can have: only the last may lack its newline. -/
def Joined : List Text.Line → Prop
  | [] => True
  | [l] => newline ∉ l.bytes ∧ (l.terminated = true ∨ l.bytes ≠ [])
  | l :: ls => newline ∉ l.bytes ∧ l.terminated = true ∧ Joined ls

theorem Joined.cons {l : Text.Line} {ls : List Text.Line} (hn : newline ∉ l.bytes)
    (ht : l.terminated = true) (h : Joined ls) : Joined (l :: ls) := by
  cases ls with
  | nil => exact ⟨hn, .inl ht⟩
  | cons => exact ⟨hn, ht, h⟩

theorem joined_lines (file : Bytes) : Joined (Text.lines file) := by
  induction file using Text.lines_induction with
  | nil => trivial
  | torn l hl hne =>
    rw [Text.lines_unterminated hl hne]
    exact ⟨hl, .inr hne⟩
  | line l rest hl ih =>
    rw [Text.lines_line hl]
    exact .cons hl rfl ih

theorem lines_joined {ls : List Text.Line} (h : Joined ls) :
    Text.lines (ls.flatMap Text.Line.text) = ls := by
  have closed {l : Text.Line} {ls : List Text.Line} (hn : newline ∉ l.bytes)
      (ht : l.terminated = true) (hls : Text.lines (ls.flatMap Text.Line.text) = ls) :
      Text.lines ((l :: ls).flatMap Text.Line.text) = l :: ls := by
    obtain ⟨bytes, terminated⟩ := l
    obtain rfl : terminated = true := ht
    rw [List.flatMap_cons]
    change Text.lines ((bytes ++ [newline]) ++ _) = _
    rw [List.append_assoc]
    exact (Text.lines_line hn _).trans (congrArg _ hls)
  induction ls with
  | nil => rfl
  | cons l ls ih =>
    cases ls with
    | nil =>
      obtain ⟨hn, hl⟩ := h
      cases ht : l.terminated with
      | true => exact closed hn ht rfl
      | false =>
        have hne : l.bytes ≠ [] := hl.resolve_left (by simp [ht])
        obtain ⟨bytes, terminated⟩ := l
        obtain rfl : terminated = false := ht
        exact (congrArg Text.lines (List.append_nil bytes)).trans (Text.lines_unterminated hn hne)
    | cons l' ls => exact closed h.1 h.2.1 (ih h.2.2)

/-! Rows. -/

/-- A JSON object as a caller hands it over: its keys in order, nested no deeper than the reader
follows. -/
structure RowValue (row : Members) : Prop where
  sorted : Json.SortedKeys row
  normal : Json.NormalMembers row
  depth : Json.depthMembers row < Json.maxDepth

theorem mem_insert {k : Bytes} {v : Json} {ms : Members} {m : Bytes × Json}
    (h : m ∈ Json.insert k v ms) : m = (k, v) ∨ m ∈ ms := by
  induction ms with
  | nil => exact .inl (List.mem_singleton.mp h)
  | cons m' ms ih =>
    obtain ⟨k', v'⟩ := m'
    unfold Json.insert at h
    split at h
    · exact List.mem_cons.mp h
    split at h
    · exact (List.mem_cons.mp h).imp_right (List.mem_cons_of_mem _)
    · rcases List.mem_cons.mp h with rfl | h
      · exact .inr List.mem_cons_self
      · exact (ih h).imp_right (List.mem_cons_of_mem _)

theorem erase_of_not_mem {k : Bytes} {ms : Members} (h : ∀ m ∈ ms, m.1 ≠ k) : erase k ms = ms :=
  List.filter_eq_self.mpr fun m hm => decide_eq_true (h m hm)

theorem erase_insert {k : Bytes} (v : Json) {ms : Members} (h : ∀ m ∈ ms, m.1 ≠ k) :
    erase k (Json.insert k v ms) = ms := by
  induction ms with
  | nil => simp [Json.insert, erase]
  | cons m' ms ih =>
    obtain ⟨k', v'⟩ := m'
    obtain ⟨hk, hms⟩ := List.forall_mem_cons.mp h
    unfold Json.insert
    split
    · unfold erase
      rw [List.filter_cons_of_neg (by simp)]
      exact erase_of_not_mem h
    split
    · next heq => exact absurd heq.symm hk
    · unfold erase
      rw [List.filter_cons_of_pos (by simpa using hk)]
      exact congrArg _ (ih hms)

theorem lookup_erase {k k' : Bytes} (h : k' ≠ k) (ms : Members) :
    Json.lookup k (erase k' ms) = Json.lookup k ms := by
  unfold Json.lookup erase
  rw [List.find?_filter]
  congr 1
  congr 1
  funext m
  by_cases hm : m.1 = k
  · simp [hm, Ne.symm h]
  · simp [hm]

theorem RowValue.erase {row : Members} (h : RowValue row) (k : Bytes) : RowValue (erase k row) := by
  refine ⟨?_, ?_, ?_⟩
  · exact h.sorted.sublist (List.filter_sublist.map _)
  · have hn := h.normal
    clear h
    induction row with
    | nil => trivial
    | cons m row ih =>
      unfold Probe.erase
      rw [List.filter_cons]
      split
      · exact ⟨hn.1, ih hn.2⟩
      · exact ih hn.2
  · refine lt_of_le_of_lt ?_ h.depth
    clear h
    induction row with
    | nil => exact le_rfl
    | cons m row ih =>
      unfold Probe.erase at ih ⊢
      rw [List.filter_cons]
      obtain ⟨k', v⟩ := m
      split
      · exact max_le_max le_rfl ih
      · exact ih.trans (le_max_right _ _)

theorem RowValue.insert {row : Members} (h : RowValue row) (k s : Bytes) :
    RowValue (Json.insert k (.str s) row) := by
  obtain ⟨hs, hn⟩ := Json.normalizeMembers_normal [(k, .str s)] row h.sorted h.normal
  have hd := Json.depth_normalizeMembers_le [(k, .str s)] row
  refine ⟨hs, hn, lt_of_le_of_lt hd ?_⟩
  have hzero : Json.depthMembers [(k, .str s)] = 0 := rfl
  rw [hzero, Nat.max_zero]
  exact h.depth

variable {env : Env}

theorem readRow_print {ms : Members} {line : Bytes} (h : RowValue ms)
    (hp : Json.print (.obj ms) = some line) (hu : Text.utf8Valid line = true) :
    env.readRow line = some ms := by
  have hparse : Json.parse env.floatInRange line = some (.obj ms) := Json.parse_print hp h.depth
  have hnorm : (Json.obj ms).normalize = .obj ms := Json.normalize_of_normal ⟨h.sorted, h.normal⟩
  unfold Env.readRow
  rw [if_pos hu, hparse, Option.map_some, hnorm]

/-- What an append writes reads as a row that follows `prev` and carries its own hash. -/
theorem rowLine_link {row : Members} {prev line : Bytes} (h : RowValue row)
    (hl : env.rowLine prev row = some line) (hu : Text.utf8Valid line = true) :
    ∃ ms text, Json.print (.obj ms) = some line ∧ env.readRow line = some ms ∧
      rowText ms = some text ∧ env.link line = some ⟨some prev, some (env.sha256Hex text)⟩ := by
  obtain ⟨ms, hseal, hline⟩ := Option.bind_eq_some_iff.mp hl
  obtain ⟨text, htext, rfl⟩ := Option.map_eq_some_iff.mp hseal
  have hfields := ((h.erase (ascii "prev")).erase (ascii "hash")).insert (ascii "prev") prev
  have hread := @readRow_print env _ _ (hfields.insert _ _) hline hu
  have hkeys : ∀ m ∈ Json.insert (ascii "prev") (.str prev)
      (erase (ascii "hash") (erase (ascii "prev") row)), m.1 ≠ ascii "hash" := by
    intro m hm
    rcases mem_insert hm with rfl | hm
    · change ascii "prev" ≠ ascii "hash"
      decide
    · simpa using (List.mem_filter.mp hm).2
  have hrow : rowText _ = some text := (congrArg (fun ms => Json.print (.obj ms))
    (erase_insert (.str (env.sha256Hex text)) hkeys)).trans htext
  refine ⟨_, text, hline, hread, hrow, ?_⟩
  have hhash : env.rowHash line (Json.insert (ascii "hash") (.str (env.sha256Hex text))
      (Json.insert (ascii "prev") (.str prev) (erase (ascii "hash") (erase (ascii "prev") row)))) =
      env.sha256Hex text := by
    unfold Env.rowHash
    rw [hrow]
  have hgetHash : getStr (ascii "hash") (Json.insert (ascii "hash") (.str (env.sha256Hex text))
      (Json.insert (ascii "prev") (.str prev) (erase (ascii "hash") (erase (ascii "prev") row)))) =
      some (env.sha256Hex text) := by
    unfold getStr
    rw [Json.lookup_insert_self]
    rfl
  have hgetPrev : getStr (ascii "prev") (Json.insert (ascii "hash") (.str (env.sha256Hex text))
      (Json.insert (ascii "prev") (.str prev) (erase (ascii "hash") (erase (ascii "prev") row)))) =
      some prev := by
    unfold getStr
    rw [Json.lookup_insert_ne (by decide), Json.lookup_insert_self]
    rfl
  unfold Env.link
  rw [hread, Option.map_some, hhash, hgetHash, hgetPrev, if_pos rfl]

theorem print_obj {ms : Members} {line : Bytes} (h : Json.print (.obj ms) = some line) :
    ∃ body, line = Json.openBrace :: (body ++ [Json.closeBrace]) := by
  obtain ⟨ps, -, rfl⟩ := Option.map_eq_some_iff.mp h
  exact ⟨_, rfl⟩

/-- A line cut short is no row. -/
theorem link_cut {ms : Members} {line part : Bytes} (h : Json.print (.obj ms) = some line)
    (hr : env.readRow line = some ms) (hp : part <+: line) (hne : part ≠ line) :
    env.link part = none := by
  have hnone : Json.parse env.floatInRange part = none := by
    obtain ⟨body, hbody⟩ := print_obj h
    obtain ⟨rest, hrest⟩ := hp
    cases part with
    | nil => simp [Json.parse, Json.parseValue, Json.skipWs]
    | cons c part =>
      obtain rfl : c = Json.openBrace := by
        rw [hbody] at hrest
        exact (List.cons.inj hrest).1
      have hmem : Json.closeBrace ∈ rest := by
        rcases List.eq_nil_or_concat rest with rfl | ⟨init, last, rfl⟩
        · rw [List.append_nil] at hrest
          exact absurd hrest hne
        · rw [hbody, List.concat_eq_append, ← List.append_assoc, ← List.cons_append] at hrest
          obtain ⟨-, hlast⟩ := List.append_inj' hrest rfl
          obtain rfl : last = Json.closeBrace := by simpa using hlast
          simp
      have hsome : ∃ v, Json.parse env.floatInRange (Json.openBrace :: part ++ rest) = some v := by
        rw [hrest]
        unfold Env.readRow at hr
        split at hr
        · cases hparse : Json.parse env.floatInRange line with
          | none =>
            rw [hparse] at hr
            cases hr
          | some v => exact ⟨v, rfl⟩
        · cases hr
      obtain ⟨v, hv⟩ := hsome
      exact Json.parse_prefix (by decide) hmem hv
  unfold Env.link Env.readRow
  rw [hnone]
  split <;> rfl

/-! Files that appends leave. -/

/-- A file grows by appends, any of which may be torn. -/
inductive Env.Written (env : Env) : Bytes → Prop where
  | empty : env.Written []
  | append {file line : Bytes} {row : Members} (part : Bytes) : env.Written file → RowValue row →
      env.rowLine (env.lastHash file) row = some line → Text.utf8Valid line = true →
      part <+: appended file line → env.Written (file ++ part)

/-- Appends to a file, whatever hash they chain to. -/
inductive Env.Continues (env : Env) (file : Bytes) : Bytes → Prop where
  | refl : env.Continues file file
  | append {later line prev : Bytes} {row : Members} (part : Bytes) : env.Continues file later →
      env.rowLine prev row = some line → part <+: appended later line →
      env.Continues file (later ++ part)

theorem rowLine_no_newline {row : Members} {prev line : Bytes}
    (h : env.rowLine prev row = some line) : newline ∉ line := by
  obtain ⟨ms, -, hline⟩ := Option.bind_eq_some_iff.mp h
  exact fun hmem => absurd (Json.print_ge hline newline hmem) (by decide)

theorem endsTorn_complete {file : Bytes} (h : endsTorn file = false) : Text.Complete file := by
  rcases List.eq_nil_or_concat file with rfl | ⟨init, c, rfl⟩
  · exact Text.complete_nil
  · rw [List.concat_eq_append] at h ⊢
    rw [endsTorn, List.getLast?_concat] at h
    obtain rfl : c = newline := by simpa using h
    exact Text.complete_snoc init

/-- An append, torn or not, leaves the lines of a file and adds to them. -/
theorem lineBytes_append {file line part : Bytes} (hp : part <+: appended file line) :
    ∃ new, new <+: line ++ [newline] ∧ lineBytes (file ++ part) = lineBytes file ++ lineBytes new := by
  unfold lineBytes
  unfold appended at hp
  cases ht : endsTorn file with
  | false =>
    rw [if_neg (by simp [ht]), List.nil_append] at hp
    exact ⟨part, hp, by rw [Text.lines_append (endsTorn_complete ht), List.map_append]⟩
  | true =>
    rw [if_pos ht] at hp
    cases part with
    | nil => exact ⟨[], List.nil_prefix, by simp⟩
    | cons c part =>
      obtain ⟨rfl, hpart⟩ := List.cons_prefix_cons.mp hp
      obtain ⟨a, l, ha, hl, rfl⟩ := Text.exists_tail file
      have hne : l ≠ [] := by
        rintro rfl
        rw [List.append_nil] at ht
        rcases ha with rfl | ⟨init, rfl⟩
        · exact nomatch ht
        · rw [endsTorn, List.getLast?_concat] at ht
          exact nomatch ht
      refine ⟨part, hpart, ?_⟩
      rw [List.append_assoc, Text.lines_append ha, Text.lines_line hl, Text.lines_append_torn ha hl hne]
      simp

/-- What a torn append adds is at most one line, a part of the row's. -/
theorem lineBytes_part {line new : Bytes} (hn : newline ∉ line) (h : new <+: line ++ [newline]) :
    lineBytes new = [] ∨ ∃ part, part <+: line ∧ lineBytes new = [part] := by
  unfold lineBytes
  rcases List.prefix_concat_iff.mp h with rfl | h
  · refine .inr ⟨line, List.prefix_rfl, ?_⟩
    rw [Text.lines_line hn]
    rfl
  · by_cases hne : new = []
    · exact .inl (by rw [hne]; rfl)
    · refine .inr ⟨new, h, ?_⟩
      rw [Text.lines_unterminated (fun hmem => hn (h.subset hmem)) hne]
      rfl

/-- The rows of a written file verify, and none of them holds a float. -/
theorem Env.Written.clean {file : Bytes} (h : env.Written file) :
    (env.readChain file).brokenAt = none ∧
      ∀ line ∈ lineBytes file, ∀ ms, env.readRow line = some ms → (rowText ms).isSome := by
  induction h with
  | empty => exact ⟨rfl, fun _ hl => by cases hl⟩
  | @append file line row part _ hrow hline hu hp ih =>
    obtain ⟨ihclean, ihtext⟩ := ih
    obtain ⟨ms, text, hprint, hread, htext, hlink⟩ := rowLine_link hrow hline hu
    obtain ⟨new, hnew, hbytes⟩ := lineBytes_append hp
    have hfollow := follow_lastHash ihclean
    rw [readChain_clean, hbytes, Env.links, List.map_append, HashChain.follow_append]
    change (∃ q, (HashChain.follow genesis (env.links (lineBytes file))).bind _ = some q) ∧ _
    rw [hfollow]
    rcases lineBytes_part (rowLine_no_newline hline) hnew with hnil | ⟨t, ht, hone⟩
    · rw [hnil, List.append_nil]
      exact ⟨⟨_, rfl⟩, ihtext⟩
    · rw [hone]
      by_cases hfull : t = line
      · subst hfull
        refine ⟨⟨env.sha256Hex text, ?_⟩, ?_⟩
        · simp [hlink, HashChain.follow, HashChain.next]
        · intro line' hmem ms' hms'
          rcases List.mem_append.mp hmem with hmem | hmem
          · exact ihtext line' hmem ms' hms'
          · obtain rfl := List.mem_singleton.mp hmem
            obtain rfl := Option.some.inj (hread.symm.trans hms')
            rw [htext]
            rfl
      · have hcut := link_cut hprint hread ht hfull
        refine ⟨⟨env.lastHash file, ?_⟩, ?_⟩
        · simp [hcut, HashChain.follow, HashChain.next]
        · intro line' hmem ms' hms'
          rcases List.mem_append.mp hmem with hmem | hmem
          · exact ihtext line' hmem ms' hms'
          · obtain rfl := List.mem_singleton.mp hmem
            rw [Env.link, hms'] at hcut
            cases hcut

/-- What is hashed of the rows of a file. -/
def Env.hashedTexts (env : Env) (file : Bytes) : Set Bytes :=
  {text | ∃ line ∈ lineBytes file, ∃ ms, env.readRow line = some ms ∧ rowText ms = some text}

theorem readRow_depth {line : Bytes} {ms : Members} (h : env.readRow line = some ms) :
    (Json.obj ms).depth ≤ Json.maxDepth := by
  unfold Env.readRow at h
  split at h
  · cases hp : Json.parse env.floatInRange line with
    | none =>
      rw [hp] at h
      exact nomatch h
    | some v =>
      rw [hp, Option.map_some] at h
      split at h
      · next ms' hv =>
        obtain rfl := Option.some.inj h
        rw [← Option.some.inj hv]
        exact (Json.depth_normalize_le v).trans (Json.parse_depth hp)
      · exact nomatch h
  · exact nomatch h

theorem depthMembers_erase (k : Bytes) (ms : Members) :
    Json.depthMembers (erase k ms) ≤ Json.depthMembers ms := by
  induction ms with
  | nil => exact le_rfl
  | cons m ms ih =>
    unfold erase at ih ⊢
    rw [List.filter_cons]
    obtain ⟨k', v⟩ := m
    split
    · exact max_le_max le_rfl ih
    · exact ih.trans (le_max_right _ _)

/-- Rows of one text name one hash before them. -/
theorem prev_of_text {line line' text : Bytes} {ms ms' : Members} (h : env.readRow line = some ms)
    (h' : env.readRow line' = some ms') (ht : rowText ms = some text)
    (ht' : rowText ms' = some text) : getStr (ascii "prev") ms = getStr (ascii "prev") ms' := by
  have hd {line : Bytes} {ms : Members} (h : env.readRow line = some ms) :
      (Json.obj (erase (ascii "hash") ms)).depth ≤ Json.maxDepth :=
    (Nat.succ_le_succ (depthMembers_erase _ ms)).trans (readRow_depth h)
  have hparse := @Json.parse_print env.floatInRange _ _ ht (hd h)
  have hparse' := @Json.parse_print env.floatInRange _ _ ht' (hd h')
  have herase : erase (ascii "hash") ms = erase (ascii "hash") ms' :=
    Json.obj.inj (Option.some.inj (hparse.symm.trans hparse'))
  unfold getStr
  rw [← lookup_erase (by decide : ascii "hash" ≠ ascii "prev") ms, herase, lookup_erase (by decide)]

theorem mem_links {lines : List Bytes} {l : Link Bytes} (h : some l ∈ env.links lines) :
    ∃ line ∈ lines, ∃ ms, env.readRow line = some ms ∧ l.prev = getStr (ascii "prev") ms ∧
      ∀ r, l.own = some r → r = env.rowHash line ms := by
  obtain ⟨line, hline, hl⟩ := List.mem_map.mp h
  obtain ⟨ms, hms, rfl⟩ := Option.map_eq_some_iff.mp hl
  refine ⟨line, hline, ms, hms, rfl, fun r hr => ?_⟩
  change (if _ then _ else none) = some r at hr
  split at hr
  · exact (Option.some.inj hr).symm
  · exact nomatch hr

/-- A written file has no hash twice, when the hash tells its rows apart. -/
theorem Env.Written.nodup {file : Bytes} (h : env.Written file)
    (hinj : (env.hashedTexts file).InjOn env.sha256) :
    (genesis :: HashChain.passed (env.links (lineBytes file))).Nodup := by
  obtain ⟨hclean, htexts⟩ := h.clean
  have text {line : Bytes} (hl : line ∈ lineBytes file) {ms : Members}
      (hms : env.readRow line = some ms) : ∃ t, rowText ms = some t ∧
        env.rowHash line ms = env.sha256Hex t := by
    obtain ⟨t, ht⟩ := Option.isSome_iff_exists.mp (htexts line hl ms hms)
    refine ⟨t, ht, ?_⟩
    unfold Env.rowHash
    rw [ht]
  refine HashChain.nodup_passed (follow_lastHash hclean) ?_ ?_
  · intro l hl hown
    obtain ⟨line, hline, ms, hms, -, hhash⟩ := mem_links hl
    obtain ⟨t, -, ht⟩ := text hline hms
    have hlen := congrArg List.length ((hhash _ hown).trans ht)
    rw [Env.sha256Hex, Text.hex_length, (env.sha256 t).2] at hlen
    exact absurd hlen (by decide)
  · intro l l' hl hl' r hown hown'
    obtain ⟨line, hline, ms, hms, hprev, hhash⟩ := mem_links hl
    obtain ⟨line', hline', ms', hms', hprev', hhash'⟩ := mem_links hl'
    obtain ⟨t, ht, hr⟩ := text hline hms
    obtain ⟨t', ht', hr'⟩ := text hline' hms'
    have heq : env.sha256Hex t = env.sha256Hex t' := by
      rw [← hr, ← hr', ← hhash r hown, ← hhash' r hown']
    obtain rfl : t = t' := hinj ⟨line, hline, ms, hms, ht⟩ ⟨line', hline', ms', hms', ht'⟩
      (Subtype.ext (Text.hex_injective heq))
    rw [hprev, hprev']
    exact prev_of_text hms hms' ht ht'

/-! What is told. -/

/-- Rows of a file are deleted or altered, on lines of their own, and no hash is recomputed. -/
structure Env.Changed (env : Env) (file : Bytes) (changes : List (Text.Line × Edit Text.Line)) :
    Prop where
  lines : changes.map Prod.fst = Text.lines file
  row : ∀ c ∈ changes, c.2 ≠ .keep → c.1.terminated = true ∧ (env.readRow c.1.bytes).isSome
  altered : ∀ c ∈ changes, ∀ l, c.2 = .alter l → l.terminated = true ∧ newline ∉ l.bytes ∧
    ∀ k, env.link l.bytes = some k → k.own = none

def changedFile (changes : List (Text.Line × Edit Text.Line)) : Bytes :=
  (edited changes).flatMap Text.Line.text

/-- The changes, as the reader takes the lines. -/
def Env.entries (env : Env) (changes : List (Text.Line × Edit Text.Line)) :
    List (Option (Link Bytes) × Edit (Option (Link Bytes))) :=
  changes.map fun c => (env.link c.1.bytes, c.2.map fun l => env.link l.bytes)

/-- The record notices that a file lost something: the file reads broken, the gate refuses every
run on it, and no append makes it read clean again. -/
structure Env.Noticed (env : Env) (stream : Stream) (file : Bytes) : Prop where
  broken : (env.readChain file).brokenAt.isSome
  refused : ∀ files : Stream → Bytes, files stream = file → ∀ input : GateInput,
    input.history.broken = env.brokenChains files → check input ≠ .ok ()
  kept : ∀ later, env.Continues file later → (env.readChain later).brokenAt.isSome

theorem check_broken {input : GateInput} (h : check input = .ok ()) : input.history.broken = [] := by
  obtain ⟨_, hstate, -⟩ := bind_eq_ok.mp h
  obtain ⟨_, -, hstate⟩ := bind_eq_ok.mp hstate
  obtain ⟨_, -, hstate⟩ := bind_eq_ok.mp hstate
  cases hb : input.history.broken with
  | nil => rfl
  | cons b bs =>
    rw [hb] at hstate
    exact nomatch hstate

theorem readLines_append (number : Nat) (r : Reading) (lines more : List Bytes) :
    env.readLines number r (lines ++ more) =
      env.readLines (number + lines.length) (env.readLines number r lines) more := by
  induction lines generalizing number r with
  | nil => rfl
  | cons line lines ih =>
    change env.readLines (number + 1) _ (lines ++ more) = _
    rw [ih, List.length_cons, Nat.add_assoc, Nat.add_comm 1]
    rfl

theorem Env.Continues.broken {file later : Bytes} (h : env.Continues file later)
    (hb : (env.readChain file).brokenAt.isSome) : (env.readChain later).brokenAt.isSome := by
  induction h with
  | refl => exact hb
  | append part _ _ hp ih =>
    obtain ⟨new, -, hbytes⟩ := lineBytes_append hp
    obtain ⟨n, hn⟩ := Option.isSome_iff_exists.mp ih
    change (env.readLines 1 .start (lineBytes _)).read.brokenAt.isSome
    rw [hbytes, readLines_append, readLines_broken hn]
    rfl

theorem Env.Changed.joined {file : Bytes} {changes : List (Text.Line × Edit Text.Line)}
    (h : env.Changed file changes) : Joined (edited changes) := by
  have hj : Joined (changes.map Prod.fst) := h.lines ▸ joined_lines file
  have ha := h.altered
  clear h
  induction changes with
  | nil => trivial
  | cons c changes ih =>
    have hrest : Joined (edited changes) := by
      refine ih ?_ fun c' hc' => ha c' (List.mem_cons_of_mem _ hc')
      cases changes with
      | nil => trivial
      | cons => exact hj.2.2
    obtain ⟨l, e⟩ := c
    cases e with
    | delete => exact hrest
    | alter l' =>
      obtain ⟨ht, hn, -⟩ := ha _ List.mem_cons_self l' rfl
      exact hrest.cons hn ht
    | keep =>
      change Joined (l :: edited changes)
      cases changes with
      | nil => exact hj
      | cons => exact hrest.cons hj.1 hj.2.1

theorem Env.Changed.links {file : Bytes} {changes : List (Text.Line × Edit Text.Line)}
    (h : env.Changed file changes) :
    env.links (lineBytes (changedFile changes)) = edited (env.entries changes) := by
  rw [Env.entries, HashChain.edited_map (fun l : Text.Line => env.link l.bytes), Env.links, lineBytes,
    changedFile, lines_joined h.joined, List.map_map]
  rfl

/-- A changed file reads broken exactly when the changes tell. -/
theorem Env.Changed.broken_iff {file : Bytes} {changes : List (Text.Line × Edit Text.Line)}
    (hw : env.Written file) (hinj : (env.hashedTexts file).InjOn env.sha256)
    (h : env.Changed file changes) :
    (env.readChain (changedFile changes)).brokenAt.isSome ↔ HashChain.Told (env.entries changes) := by
  have hfst : (env.entries changes).map Prod.fst = env.links (lineBytes file) := by
    rw [Env.entries, List.map_map, Env.links, lineBytes, ← h.lines, List.map_map, List.map_map]
    rfl
  have hclean := follow_lastHash hw.clean.1
  have hnodup := hw.nodup hinj
  rw [← hfst] at hclean hnodup
  rw [← HashChain.follow_edited hclean hnodup ?_ ?_, ← h.links, ← not_iff_not,
    Bool.not_eq_true, Option.isSome_eq_false_iff, Option.isNone_iff_eq_none, readChain_clean,
    ← ne_eq, Option.ne_none_iff_exists']
  · intro c hc hk
    obtain ⟨c', hc', rfl⟩ := List.mem_map.mp hc
    have hk' : c'.2 ≠ .keep := fun he => hk (by rw [he]; rfl)
    change ((env.readRow c'.1.bytes).map _).isSome = true
    rw [Option.isSome_map]
    exact (h.row c' hc' hk').2
  · intro c hc l hl
    obtain ⟨⟨line, e⟩, hc', rfl⟩ := List.mem_map.mp hc
    cases e with
    | keep => exact nomatch hl
    | delete => exact nomatch hl
    | alter l' => exact (h.altered _ hc' l' rfl).2.2 l (Edit.alter.inj hl)

def wideConfig : ProbeConfig :=
  ⟨true, ascii "pulse-probe", .max, ascii "02:00", ascii "06:00", u32Max, 1⟩

/-- A gate input that passes, at three in the morning, on a history of any runs and turns. -/
def passingInput : GateInput :=
  ⟨wideConfig, ⟨fun _ => 3 * 60 * minuteNanos, fun _ => none⟩, 0, false, false, .ok (),
    ⟨[], [], []⟩, 0⟩

/-- A loss is noticed, by reader and gate and for good, exactly when the file is one the gate reads
and the changes tell. -/
theorem loss_noticed_iff (env : Env) {file : Bytes} (hw : env.Written file)
    (hinj : (env.hashedTexts file).InjOn env.sha256)
    {changes : List (Text.Line × Edit Text.Line)} (h : env.Changed file changes) (stream : Stream) :
    env.Noticed stream (changedFile changes) ↔
      stream ≠ .items ∧ HashChain.Told (env.entries changes) := by
  constructor
  · intro hno
    refine ⟨?_, (h.broken_iff hw hinj).mp hno.broken⟩
    rintro rfl
    -- the gate does not read the items: on a record with nothing else in it a run passes
    refine hno.refused (fun s => if s = .items then changedFile changes else []) rfl passingInput ?_ ?_
    · rfl
    · decide +kernel
  · rintro ⟨hstream, htold⟩
    have hb := (h.broken_iff hw hinj).mpr htold
    refine ⟨hb, ?_, fun later hl => hl.broken hb⟩
    rintro files hfile input hbroken hok
    rw [check_broken hok] at hbroken
    obtain ⟨n, hn⟩ := Option.isSome_iff_exists.mp hb
    have hmem : (stream, n) ∈ env.brokenChains files := by
      refine List.mem_filterMap.mpr ⟨stream, ?_, ?_⟩
      · cases stream with
        | items => exact absurd rfl hstream
        | runs => decide
        | facts => decide
        | budget => decide
      · rw [hfile, hn]
        rfl
    rw [← hbroken] at hmem
    exact nomatch hmem

/-! Two rows. -/

def sampleRow (n : Fin (2^64)) : Members := [(ascii "n", .num (.pos n))]

def sampleFirst : Bytes := ascii "\x7b\"n\":1,\"prev\":\"genesis\"\x7d"

def sampleSecond : Bytes := ascii "\x7b\"n\":2,\"prev\":\"" ++
  ascii "d448debd9aafbb999205d5bd2a80974cf2a410ef6332b5ccc5533382bb53369f" ++ ascii "\"\x7d"

/-- SHA-256 on the two rows. -/
def sampleSha (bytes : Bytes) : { digest : Bytes // digest.length = 32 } :=
  if bytes = sampleFirst then
    ⟨[0xd4, 0x48, 0xde, 0xbd, 0x9a, 0xaf, 0xbb, 0x99, 0x92, 0x05, 0xd5, 0xbd, 0x2a, 0x80, 0x97, 0x4c,
      0xf2, 0xa4, 0x10, 0xef, 0x63, 0x32, 0xb5, 0xcc, 0xc5, 0x53, 0x33, 0x82, 0xbb, 0x53, 0x36, 0x9f],
      rfl⟩
  else if bytes = sampleSecond then
    ⟨[0xab, 0x05, 0x1b, 0x90, 0x67, 0x1c, 0x20, 0x66, 0x8c, 0xfb, 0x0c, 0xdd, 0x43, 0x18, 0x3d, 0x33,
      0x15, 0x06, 0x94, 0xf1, 0x2a, 0x27, 0xef, 0x52, 0xc1, 0xb1, 0x86, 0x70, 0x49, 0xe9, 0x58, 0xb1],
      rfl⟩
  else ⟨List.replicate 32 0, rfl⟩

def sampleEnv : Env := ⟨sampleSha, fun _ => true, fun _ => []⟩

def sampleLine (prev : Bytes) (n : Fin (2^64)) : Bytes :=
  (sampleEnv.rowLine prev (sampleRow n)).getD []

def sampleFile : Bytes :=
  let first := appended [] (sampleLine genesis 1)
  first ++ appended first (sampleLine (sampleEnv.lastHash first) 2)

theorem sampleFile_written : sampleEnv.Written sampleFile := by
  have row (n : Fin (2^64)) : RowValue (sampleRow n) :=
    ⟨List.pairwise_singleton _ _, ⟨trivial, trivial⟩, by
      change max 0 0 < 127
      decide⟩
  have hfirst : sampleEnv.Written ([] ++ appended [] (sampleLine genesis 1)) :=
    .append _ .empty (row 1) (by decide +kernel) (by decide +kernel) List.prefix_rfl
  exact .append _ hfirst (row 2) (by decide +kernel)
    (by decide +kernel) List.prefix_rfl

theorem sampleFile_injOn : (sampleEnv.hashedTexts sampleFile).InjOn sampleEnv.sha256 := by
  have hrows : ((lineBytes sampleFile).map fun line => (sampleEnv.readRow line).bind rowText) =
      [some sampleFirst, some sampleSecond] := by decide +kernel
  have hmem : ∀ t ∈ sampleEnv.hashedTexts sampleFile, t ∈ [sampleFirst, sampleSecond] := by
    rintro t ⟨line, hline, ms, hms, ht⟩
    have : some t ∈ (lineBytes sampleFile).map fun line => (sampleEnv.readRow line).bind rowText :=
      List.mem_map.mpr ⟨line, hline, by rw [hms]; exact ht⟩
    rw [hrows] at this
    simpa using this
  have hd : ∀ x ∈ [sampleFirst, sampleSecond], ∀ y ∈ [sampleFirst, sampleSecond],
      sampleSha x = sampleSha y → x = y := by decide +kernel
  exact fun x hx y hy => hd x (hmem x hx) y (hmem y hy)

/-- One of the two rows is deleted. -/
def sampleChanges (first second : Edit Text.Line) : List (Text.Line × Edit Text.Line) :=
  (Text.lines sampleFile).zip [first, second]

theorem sampleChanges_changed {first second : Edit Text.Line}
    (h : (first = .delete ∧ second = .keep) ∨ (first = .keep ∧ second = .delete)) :
    sampleEnv.Changed sampleFile (sampleChanges first second) := by
  have hlines : (Text.lines sampleFile).length = 2 := by decide +kernel
  have hrow : ∀ l ∈ Text.lines sampleFile,
      l.terminated = true ∧ (sampleEnv.readRow l.bytes).isSome := by decide +kernel
  have hedit : ∀ c ∈ sampleChanges first second, c.1 ∈ Text.lines sampleFile ∧
      c.2 ∈ [first, second] := fun c hc => ⟨(List.of_mem_zip hc).1, (List.of_mem_zip hc).2⟩
  refine ⟨?_, fun c hc _ => hrow c.1 (hedit c hc).1, ?_⟩
  · unfold sampleChanges
    rw [List.map_fst_zip (by rw [hlines]; rfl)]
  · intro c hc l hl
    have := (hedit c hc).2
    rw [hl] at this
    rcases h with ⟨rfl, rfl⟩ | ⟨rfl, rfl⟩ <;> simp at this

/-- With the first row gone the second one tells of it. -/
theorem loss_noticed_iff_sample :
    sampleEnv.Noticed .budget (changedFile (sampleChanges .delete .keep)) := by
  refine (loss_noticed_iff sampleEnv sampleFile_written sampleFile_injOn
    (sampleChanges_changed (.inl ⟨rfl, rfl⟩)) .budget).mpr ⟨by decide, .inr ?_⟩
  have hentries : ∃ x y, Text.lines sampleFile = [x, y] ∧ (sampleEnv.link y.bytes).isSome := by
    have hlen : (Text.lines sampleFile).length = 2 := by decide +kernel
    obtain ⟨x, y, hxy⟩ := List.length_eq_two.mp hlen
    refine ⟨x, y, hxy, ?_⟩
    have hall : ∀ l ∈ Text.lines sampleFile, (sampleEnv.link l.bytes).isSome := by decide +kernel
    exact hall y (by rw [hxy]; simp)
  obtain ⟨x, y, hxy, hy⟩ := hentries
  refine ⟨[], (sampleEnv.link x.bytes, .delete), [], (sampleEnv.link y.bytes, .keep), [], ?_, ?_, hy, rfl⟩
  · unfold Env.entries sampleChanges
    rw [hxy]
    rfl
  · exact fun he => nomatch he

/-- The last row is deleted, and the file reads clean. -/
theorem last_row_lost : ¬∀ env : Env, ∀ file, env.Written file →
    (env.hashedTexts file).InjOn env.sha256 → ∀ changes, env.Changed file changes →
      (∃ c ∈ changes, c.2 ≠ .keep) → (env.readChain (changedFile changes)).brokenAt.isSome := by
  intro hclaim
  have hbroken := hclaim sampleEnv sampleFile sampleFile_written sampleFile_injOn
    (sampleChanges .keep .delete) (sampleChanges_changed (.inr ⟨rfl, rfl⟩)) ?_
  · have hclean : (sampleEnv.readChain (changedFile (sampleChanges .keep .delete))).brokenAt = none := by
      decide +kernel
    rw [hclean] at hbroken
    exact nomatch hbroken
  · have hlen : (Text.lines sampleFile).length = 2 := by decide +kernel
    obtain ⟨x, y, hxy⟩ := List.length_eq_two.mp hlen
    refine ⟨(y, .delete), ?_, fun he => nomatch he⟩
    unfold sampleChanges
    rw [hxy]
    simp

end PulseNull.Probe
