import PulseNull.Json.Maps
import PulseNull.ClaudeHooks.ShellWords

/-! `settings.json`: the recall-echo hooks merged into a document of the user, and the check that
they are in place. -/
namespace PulseNull.ClaudeHooks

abbrev Members := List (Bytes × Json)

def hooksKey : Bytes := Text.ascii "hooks"
def commandKey : Bytes := Text.ascii "command"

def members : Json → Members
  | .obj ms => ms
  | _ => []

/-- `value[key]`; null when there is none. -/
def index (value : Json) (key : Bytes) : Json := (Json.lookup key (members value)).getD .null

def asArray : Json → Option (List Json)
  | .arr items => some items
  | _ => none

def asStr : Json → Option Bytes
  | .str text => some text
  | _ => none

/-- `value[i]`; null when there is none. -/
def indexAt (value : Json) (i : ℕ) : Json := ((asArray value).getD [])[i]?.getD .null

/-- The hooks that a pulse installs, by event, and those that are retired. -/
def recallHooks : List (Bytes × Bytes) :=
  [(Text.ascii "PreCompact", Text.ascii "checkpoint"),
    (Text.ascii "SessionEnd", Text.ascii "archive-session")]

def retiredRecallHooks : List (Bytes × Bytes) := [(Text.ascii "SessionStart", Text.ascii "consume")]

def canonicalHook (recallBin sub root : Bytes) : Json :=
  .obj [(commandKey, .str (hookCommand recallBin sub root)),
    (Text.ascii "type", .str (Text.ascii "command"))]

def canonicalEntry (recallBin sub root : Bytes) : Json :=
  .obj [(hooksKey, .arr [canonicalHook recallBin sub root])]

/-- Our hooks, keyed by event. -/
def renderHooks (recallBin root : Bytes) : Json :=
  .obj (recallHooks.foldl (fun ms p => Json.insert p.1 (.arr [canonicalEntry recallBin p.2 root]) ms) [])

/-- A hook whose command is a recall-echo one of the subcommand. -/
def recallHook (sub : Bytes) (hook : Json) : Bool :=
  match asStr (index hook commandKey) with
  | some command => isRecallCommand command sub
  | none => false

/-- An entry without its recall-echo hooks; none when no hook is left in it. -/
def stripRecallHooks (entry : Json) (sub : Bytes) : Option Json :=
  match asArray (index entry hooksKey) with
  | none => some entry
  | some hooks =>
    let kept := hooks.filter fun hook => !recallHook sub hook
    if kept.isEmpty then none else some (.obj (Json.insert hooksKey (.arr kept) (members entry)))

def stripAll (entries : List Json) (sub : Bytes) : List Json :=
  entries.filterMap (stripRecallHooks · sub)

def retire (hooks : Members) (p : Bytes × Bytes) : Members :=
  match (Json.lookup p.1 hooks).bind asArray with
  | none => hooks
  | some raw =>
    let kept := stripAll raw p.2
    if kept.isEmpty then Json.remove p.1 hooks else Json.insert p.1 (.arr kept) hooks

/-- An event that holds no array starts empty. -/
def manage (ours : Json) (hooks : Members) (p : Bytes × Bytes) : Members :=
  let entries := stripAll (((Json.lookup p.1 hooks).bind asArray).getD []) p.2
  let canonical := ((asArray (index ours p.1)).getD []).head?
  Json.insert p.1 (.arr (entries ++ canonical.toList)) hooks

def mergeHooks (existing ours : Json) : Json :=
  let root := members existing
  let createdHooks := (Json.lookup hooksKey root).isNone
  let hooks := members ((Json.lookup hooksKey root).getD (.obj []))
  let hooks := recallHooks.foldl (manage ours) (retiredRecallHooks.foldl retire hooks)
  if createdHooks && hooks.isEmpty then .obj (Json.remove hooksKey root)
  else .obj (Json.insert hooksKey (.obj hooks) root)

/-- The recall-echo `sub` commands under one event. -/
def recallCommands (existing : Json) (event sub : Bytes) : List Bytes :=
  ((((asArray (index (index existing hooksKey) event)).getD []).flatMap fun entry =>
    (asArray (index entry hooksKey)).getD []).filterMap fun hook =>
      asStr (index hook commandKey)).filter (isRecallCommand · sub)

/-- Every entry of every event that holds an array. -/
def allEntries (doc : Json) : List Json :=
  (members (index doc hooksKey)).flatMap fun event => (asArray event.2).getD []

def flatCommand (entry : Json) : Option Bytes := asStr (index entry commandKey)

def nestedCommands (entry : Json) : List Bytes :=
  ((asArray (index entry hooksKey)).getD []).filterMap fun hook => asStr (index hook commandKey)

/-- The commands of flat entries and of the hooks in nested ones. -/
def eachHookCommand (doc : Json) : List Bytes :=
  (allEntries doc).flatMap fun entry => (flatCommand entry).toList ++ nestedCommands entry

def hasWrappedConsume (doc : Json) : Bool := (eachHookCommand doc).any isWrappedConsume

/-- A `consume` hook that the merge does not delete. -/
def consumeLeftInPlace (doc : Json) : Bool :=
  (allEntries doc).any fun entry =>
    (flatCommand entry).any commandRunsConsume ||
      (nestedCommands entry).any fun command =>
        commandRunsConsume command && !isRecallCommand command (Text.ascii "consume")

def hasCanonicalHooks (existing ours : Json) : Bool :=
  let installed := recallHooks.all fun p =>
    match asStr (index (indexAt (index (indexAt (index ours p.1) 0) hooksKey) 0) commandKey) with
    | none => false
    | some canonical => recallCommands existing p.1 p.2 = [canonical]
  let retiredAbsent := retiredRecallHooks.all (fun p => (recallCommands existing p.1 p.2).isEmpty) &&
    !hasWrappedConsume existing && !consumeLeftInPlace existing
  installed && retiredAbsent

/-- Why the item of the settings file is reported with a warning, or skipped when nothing was to be
written. -/
def leftInPlace (merged : Json) : Option String :=
  if hasWrappedConsume merged then
    some "retired consume still runs inside an sh -c or bash -c wrapper; left in place"
  else if consumeLeftInPlace merged then some "retired consume still runs; left in place"
  else none

/-! What is the user's in a document. -/

/-- What stands under an event, in order: a hook with its entry less the hooks, an entry that holds
no hooks, or a value that is no list of entries. -/
inductive Item where
  | hook (entry hook : Json)
  | entry (entry : Json)
  | value (value : Json)

def unhooked : Json → Json
  | .obj ms => .obj (Json.remove hooksKey ms)
  | entry => entry

def entryItems (entry : Json) : List Item :=
  match asArray (index entry hooksKey) with
  | some hooks => hooks.map (.hook (unhooked entry))
  | none => [.entry entry]

def valueItems : Json → List Item
  | .arr entries => entries.flatMap entryItems
  | .null => []
  | value => [.value value]

def eventValue (doc : Json) (event : Bytes) : Option Json :=
  Json.lookup event (members (index doc hooksKey))

def items (doc : Json) (event : Bytes) : List Item := ((eventValue doc event).map valueItems).getD []

/-- Not a recall-echo hook of the subcommand. -/
def foreign (sub : Bytes) : Item → Bool
  | .hook _ hook => !recallHook sub hook
  | .entry _ | .value _ => true

/-- What a merge of our hooks into the document promises. -/
structure Merges (doc : Json) (recallBin root : Bytes) (merged : Json) : Prop where
  keys : ∀ key, key ≠ hooksKey → Json.lookup key (members merged) = Json.lookup key (members doc)
  events : ∀ event, event ∉ recallHooks.map (·.1) → event ∉ retiredRecallHooks.map (·.1) →
    eventValue merged event = eventValue doc event
  managed : ∀ p ∈ recallHooks,
    (items merged p.1).filter (foreign p.2) = (items doc p.1).filter (foreign p.2)
  retired : ∀ p ∈ retiredRecallHooks, items merged p.1 = (items doc p.1).filter (foreign p.2)
  one : ∀ p ∈ recallHooks, (items merged p.1).filter (fun item => !foreign p.2 item) =
    [.hook (.obj []) (canonicalHook recallBin p.2 root)]
  settled : mergeHooks merged (renderHooks recallBin root) = merged
  canonical : hasCanonicalHooks merged (renderHooks recallBin root) = (leftInPlace merged).isNone

/-- A managed event holds a list of entries, or nothing. -/
def Listed : Option Json → Prop
  | none | some .null | some (.arr _) => True
  | some _ => False

variable {doc entry kept hook v : Json} {entries : List Json} {hooks : Members}
  {event key sub bin root : Bytes} {p q : Bytes × Bytes}

/-! Entries without their recall-echo hooks. -/

@[simp] theorem index_insert {ms : Members} : index (.obj (Json.insert key v ms)) key = v := by
  simp [index, members, Json.lookup_insert_self]

theorem members_of_index (h : asArray (index entry hooksKey) = some entries) :
    entry = .obj (members entry) := by
  cases entry with
  | obj ms => rfl
  | _ => exact absurd h nofun

private theorem items_kept {hooks : List Json} (h : asArray (index entry hooksKey) = some hooks) :
    entryItems (.obj (Json.insert hooksKey (.arr entries) (members entry))) =
      entries.map (.hook (unhooked entry)) := by
  rw [members_of_index h]
  simp [entryItems, asArray, unhooked, members, Json.remove_insert]

@[simp] theorem foreign_hook : foreign sub (.hook entry hook) = !recallHook sub hook := rfl
@[simp] theorem foreign_entry : foreign sub (.entry entry) = true := rfl
@[simp] theorem foreign_value : foreign sub (.value v) = true := rfl

private theorem strip_of_hooks {hooks : List Json} (h : asArray (index entry hooksKey) = some hooks) :
    stripRecallHooks entry sub =
      if (hooks.filter fun hook => !recallHook sub hook).isEmpty then none
      else some (.obj (Json.insert hooksKey (.arr (hooks.filter fun hook => !recallHook sub hook))
        (members entry))) := by
  rw [stripRecallHooks, h]

/-- A strip takes the recall-echo hooks of an entry, and nothing else. -/
theorem entryItems_strip :
    (stripRecallHooks entry sub).toList.flatMap entryItems = (entryItems entry).filter (foreign sub) := by
  cases h : asArray (index entry hooksKey) with
  | none =>
    have hitems : entryItems entry = [.entry entry] := by rw [entryItems, h]
    rw [stripRecallHooks, h, Option.toList_some, List.flatMap_singleton, hitems]
    rfl
  | some hooks =>
    have hold : (entryItems entry).filter (foreign sub) =
        (hooks.filter fun hook => !recallHook sub hook).map (.hook (unhooked entry)) := by
      simp only [entryItems, h, List.filter_map]
      rfl
    rw [hold, strip_of_hooks h]
    split
    · next hempty => rw [List.isEmpty_iff.mp hempty]; rfl
    · rw [Option.toList_some, List.flatMap_singleton, items_kept h]

theorem valueItems_stripAll :
    (stripAll entries sub).flatMap entryItems = (entries.flatMap entryItems).filter (foreign sub) := by
  induction entries with
  | nil => rfl
  | cons entry entries ih =>
    rw [List.flatMap_cons, List.filter_append, ← entryItems_strip, ← ih, stripAll, List.filterMap_cons]
    cases stripRecallHooks entry sub <;> simp [stripAll]

/-- A stripped entry is left alone by the next strip. -/
theorem strip_again (h : stripRecallHooks entry sub = some kept) : stripRecallHooks kept sub = some kept := by
  cases hhooks : asArray (index entry hooksKey) with
  | none =>
    have hsame : stripRecallHooks entry sub = some entry := by rw [stripRecallHooks, hhooks]
    obtain rfl := Option.some.inj (hsame.symm.trans h)
    exact hsame
  | some hooks =>
    rw [strip_of_hooks hhooks] at h
    split at h
    · exact absurd h nofun
    · next hkept =>
      obtain rfl := Option.some.inj h
      rw [strip_of_hooks (by rw [index_insert]; rfl), List.filter_filter]
      simp only [Bool.and_self, if_neg hkept, members, Json.insert_insert]

theorem stripAll_again : stripAll (stripAll entries sub) sub = stripAll entries sub := by
  induction entries with
  | nil => rfl
  | cons entry entries ih =>
    cases h : stripRecallHooks entry sub with
    | none => simpa [stripAll, h] using ih
    | some kept => simpa [stripAll, h, strip_again h] using ih

/-! The events of a merged document. -/

/-- The list of entries that a merge starts from. -/
def listed (value : Option Json) : List Json := (value.bind asArray).getD []

theorem lookup_retire_ne (h : p.1 ≠ event) : Json.lookup event (retire hooks p) = Json.lookup event hooks := by
  unfold retire
  split
  · rfl
  · simp only
    split
    · exact Json.lookup_remove_ne h
    · exact Json.lookup_insert_ne h _ _

theorem lookup_retire_self : Json.lookup p.1 (retire hooks p) =
    match (Json.lookup p.1 hooks).bind asArray with
    | none => Json.lookup p.1 hooks
    | some raw => if (stripAll raw p.2).isEmpty then none else some (.arr (stripAll raw p.2)) := by
  unfold retire
  cases (Json.lookup p.1 hooks).bind asArray with
  | none => rfl
  | some raw =>
    simp only
    split
    · exact Json.lookup_remove_self
    · exact Json.lookup_insert_self _ _ _

/-- Our rendered hooks hold the canonical entry of each managed event. -/
theorem index_renderHooks : ∀ p ∈ recallHooks,
    index (renderHooks bin root) p.1 = .arr [canonicalEntry bin p.2 root] := by
  have hne : Text.ascii "SessionEnd" ≠ Text.ascii "PreCompact" := by decide
  intro p hp
  rcases List.mem_cons.mp hp with rfl | hp
  · simp [index, renderHooks, recallHooks, members, Json.lookup_insert_ne hne, Json.lookup_insert_self]
  · obtain rfl := List.mem_singleton.mp hp
    simp [index, renderHooks, recallHooks, members, Json.lookup_insert_self]

/-- What a managed event holds after the merge. -/
def managedValue (bin root sub : Bytes) (value : Option Json) : Json :=
  .arr (stripAll (listed value) sub ++ [canonicalEntry bin sub root])

theorem manage_eq (hp : p ∈ recallHooks) : manage (renderHooks bin root) hooks p =
    Json.insert p.1 (managedValue bin root p.2 (Json.lookup p.1 hooks)) hooks := by
  rw [manage, index_renderHooks p hp]
  rfl

/-- What insertions at the managed events keep is kept over all of them. -/
theorem foldl_manage {ours : Json} {ps : List (Bytes × Bytes)} (P : Members → Prop)
    (hstep : ∀ q ∈ ps, ∀ w hs, P hs → P (Json.insert q.1 w hs)) (h : P hooks) :
    P (ps.foldl (manage ours) hooks) :=
  List.foldlRecOn ps _ h fun hs hP q hq => hstep q hq _ hs hP

theorem holds_foldl {ps : List (Bytes × Bytes)} (hps : ∀ q ∈ ps, q ∈ recallHooks)
    (hnodup : (ps.map Prod.fst).Nodup) (hp : p ∈ ps) :
    Json.Holds p.1 (managedValue bin root p.2 (Json.lookup p.1 hooks))
      (ps.foldl (manage (renderHooks bin root)) hooks) := by
  induction ps generalizing hooks with
  | nil => exact absurd hp List.not_mem_nil
  | cons q ps ih =>
    obtain ⟨hq, hnodup⟩ := List.nodup_cons.mp hnodup
    rw [List.foldl_cons, manage_eq (hps q List.mem_cons_self)]
    rcases List.mem_cons.mp hp with rfl | hp
    · refine foldl_manage (Json.Holds p.1 _) (fun r hr w hs h => h.insert_ne ?_) Json.holds_insert
      exact fun heq => hq (heq ▸ List.mem_map_of_mem hr)
    · have hne : q.1 ≠ p.1 := fun heq => hq (heq ▸ List.mem_map_of_mem hp)
      have htail := @ih (Json.insert q.1 (managedValue bin root q.2 (Json.lookup q.1 hooks)) hooks)
        (fun r hr => hps r (List.mem_cons_of_mem q hr)) hnodup hp
      rwa [Json.lookup_insert_ne hne] at htail

/-- A retired event that the next retirement leaves alone. -/
def Retired (p : Bytes × Bytes) (hooks : Members) : Prop :=
  (Json.lookup p.1 hooks).bind asArray = none ∨
    ∃ entries, entries ≠ [] ∧ stripAll entries p.2 = entries ∧ Json.Holds p.1 (.arr entries) hooks

theorem Retired.retire (h : Retired p hooks) : retire hooks p = hooks := by
  rcases h with hnone | ⟨entries, hne, hsame, hholds⟩
  · rw [ClaudeHooks.retire, hnone]
  · simp only [ClaudeHooks.retire, hholds.lookup, Option.bind_some, asArray, hsame, List.isEmpty_iff,
      if_neg hne]
    exact hholds

theorem Retired.insert_ne (h : Retired p hooks) (hne : key ≠ p.1) : Retired p (Json.insert key v hooks) := by
  rcases h with hnone | ⟨entries, hentries, hsame, hholds⟩
  · exact .inl (by rw [Json.lookup_insert_ne hne, hnone])
  · exact .inr ⟨entries, hentries, hsame, hholds.insert_ne hne⟩

theorem retired_retire : Retired p (retire hooks p) := by
  unfold ClaudeHooks.retire
  cases h : (Json.lookup p.1 hooks).bind asArray with
  | none => exact .inl h
  | some raw =>
    simp only
    split
    · exact .inl (by rw [Json.lookup_remove_self]; rfl)
    · next hkept =>
      exact .inr ⟨_, fun hnil => hkept (by rw [hnil]; rfl), stripAll_again, Json.holds_insert⟩

/-! The merged document. -/

def userHooks (doc : Json) : Members := members (index doc hooksKey)

def mergedHooks (bin root : Bytes) (doc : Json) : Members :=
  recallHooks.foldl (manage (renderHooks bin root)) (retiredRecallHooks.foldl retire (userHooks doc))

private theorem retired_ne : ∀ p ∈ recallHooks, ∀ q ∈ retiredRecallHooks, p.1 ≠ q.1 := by decide

private theorem recallHooks_nodup : (recallHooks.map Prod.fst).Nodup := by decide

/-- The merge writes `hooks`, which is never empty. -/
theorem mergeHooks_eq : mergeHooks doc (renderHooks bin root) =
    .obj (Json.insert hooksKey (.obj (mergedHooks bin root doc)) (members doc)) := by
  have hstart : members ((Json.lookup hooksKey (members doc)).getD (.obj [])) = userHooks doc := by
    rw [userHooks, index]
    cases Json.lookup hooksKey (members doc) <;> rfl
  have hfull : (mergedHooks bin root doc).isEmpty = false :=
    List.isEmpty_eq_false_iff.mpr Json.insert_ne_nil
  simp only [mergeHooks, hstart]
  rw [← mergedHooks, hfull, Bool.and_false, if_neg Bool.false_ne_true]

theorem userHooks_merged : userHooks (mergeHooks doc (renderHooks bin root)) = mergedHooks bin root doc := by
  rw [mergeHooks_eq, userHooks, index_insert, members]

theorem holds_merged (hp : p ∈ recallHooks) :
    Json.Holds p.1 (managedValue bin root p.2 (eventValue doc p.1)) (mergedHooks bin root doc) := by
  have hretired : Json.lookup p.1 (retiredRecallHooks.foldl retire (userHooks doc)) = eventValue doc p.1 :=
    lookup_retire_ne (retired_ne p hp _ List.mem_cons_self).symm
  have hholds := @holds_foldl (retiredRecallHooks.foldl retire (userHooks doc)) bin root p recallHooks
    (fun q hq => hq) recallHooks_nodup hp
  rwa [hretired] at hholds

theorem eventValue_managed (hp : p ∈ recallHooks) :
    eventValue (mergeHooks doc (renderHooks bin root)) p.1 =
      some (managedValue bin root p.2 (eventValue doc p.1)) := by
  rw [eventValue, ← userHooks, userHooks_merged, (holds_merged hp).lookup]

/-- Outside the managed events the merge is the retirement. -/
theorem eventValue_unmanaged (h : event ∉ recallHooks.map Prod.fst) :
    eventValue (mergeHooks doc (renderHooks bin root)) event =
      Json.lookup event (retiredRecallHooks.foldl retire (userHooks doc)) := by
  rw [eventValue, ← userHooks, userHooks_merged]
  refine foldl_manage (fun hs => Json.lookup event hs =
    Json.lookup event (retiredRecallHooks.foldl retire (userHooks doc))) (fun q hq w hs heq => ?_) rfl
  have hne : q.1 ≠ event := fun hqe => h (hqe ▸ List.mem_map_of_mem hq)
  rw [Json.lookup_insert_ne hne, heq]

private theorem hookCommand_words : ∀ p ∈ recallHooks, ∃ rest,
    hookCommand bin p.2 root = shellQuote bin ++ 32 :: (p.2 ++ 32 :: rest) := by
  intro p hp
  rcases List.mem_cons.mp hp with rfl | hp
  · refine ⟨Text.ascii "--trigger precompact --pulse-root " ++ shellQuote root, ?_⟩
    rw [hookCommand, if_neg (by decide), if_pos rfl, List.append_assoc]
    rfl
  · obtain rfl := List.mem_singleton.mp hp
    refine ⟨Text.ascii "--pulse-root " ++ shellQuote root, ?_⟩
    rw [hookCommand, if_neg (by decide), if_neg (by decide), List.append_assoc, List.append_assoc]
    rfl

private theorem subs_plain : ∀ p ∈ recallHooks, IsPlain p.2 ∧ p.2 ≠ [] := by
  unfold IsPlain Text.IsInk
  decide +kernel

/-- The canonical hook is a recall-echo one. -/
theorem recallHook_canonical (hbin : fileName bin = some (Text.ascii "recall-echo")) (hp : p ∈ recallHooks) :
    recallHook p.2 (canonicalHook bin p.2 root) = true := by
  obtain ⟨rest, hrest⟩ := @hookCommand_words bin root p hp
  obtain ⟨hplain, hne⟩ := subs_plain p hp
  have hcommand : asStr (index (canonicalHook bin p.2 root) commandKey) = some (hookCommand bin p.2 root) := by
    simp [canonicalHook, index, members, Json.lookup, asStr]
  rw [recallHook, hcommand, hrest]
  exact isRecallCommand_words hbin hplain hne

theorem entryItems_canonical :
    entryItems (canonicalEntry bin sub root) = [.hook (.obj []) (canonicalHook bin sub root)] := by
  simp [entryItems, canonicalEntry, index, members, Json.lookup, asArray, unhooked, Json.remove]

private theorem strip_canonicalEntry (h : recallHook sub (canonicalHook bin sub root) = true) :
    stripRecallHooks (canonicalEntry bin sub root) sub = none := by
  have hhooks : asArray (index (canonicalEntry bin sub root) hooksKey) = some [canonicalHook bin sub root] := by
    simp [canonicalEntry, index, members, Json.lookup, asArray]
  rw [strip_of_hooks hhooks, List.filter_cons_of_neg (by simp [h])]
  rfl

/-- A managed event is made of what it was made of. -/
theorem managedValue_again {value : Option Json} (h : recallHook sub (canonicalHook bin sub root) = true) :
    managedValue bin root sub (some (managedValue bin root sub value)) = managedValue bin root sub value := by
  have hstrip : stripAll (stripAll (listed value) sub ++ [canonicalEntry bin sub root]) sub =
      stripAll (listed value) sub := by
    rw [stripAll, List.filterMap_append, ← stripAll, stripAll_again, List.filterMap_cons,
      strip_canonicalEntry h, List.filterMap_nil, List.append_nil]
  change Json.arr (stripAll (stripAll (listed value) sub ++ [canonicalEntry bin sub root]) sub ++ _) = _
  rw [hstrip]
  rfl

theorem mergeHooks_settled (hbin : fileName bin = some (Text.ascii "recall-echo")) :
    mergeHooks (mergeHooks doc (renderHooks bin root)) (renderHooks bin root) =
      mergeHooks doc (renderHooks bin root) := by
  have hretire : retiredRecallHooks.foldl retire (mergedHooks bin root doc) = mergedHooks bin root doc := by
    refine Retired.retire ?_
    refine foldl_manage (Retired _) (fun q hq w hs h => h.insert_ne ?_) retired_retire
    exact retired_ne q hq _ List.mem_cons_self
  have hmanage : ∀ q ∈ recallHooks,
      manage (renderHooks bin root) (mergedHooks bin root doc) q = mergedHooks bin root doc := by
    intro q hq
    have hholds := @holds_merged doc bin root q hq
    rw [manage_eq hq, hholds.lookup, managedValue_again (recallHook_canonical hbin hq)]
    exact hholds
  have hfix : mergedHooks bin root (mergeHooks doc (renderHooks bin root)) = mergedHooks bin root doc := by
    rw [mergedHooks, userHooks_merged, hretire]
    exact List.foldlRecOn recallHooks _ (motive := (· = mergedHooks bin root doc)) rfl
      fun hs heq q hq => by rw [heq, hmanage q hq]
  rw [mergeHooks_eq, hfix, mergeHooks_eq]
  simp only [members, Json.insert_insert]

/-! What stands under an event of the merged document. -/

theorem items_managed (hp : p ∈ recallHooks) : items (mergeHooks doc (renderHooks bin root)) p.1 =
    ((listed (eventValue doc p.1)).flatMap entryItems).filter (foreign p.2) ++
      [.hook (.obj []) (canonicalHook bin p.2 root)] := by
  rw [items, eventValue_managed hp, Option.map_some, Option.getD_some, managedValue, valueItems,
    List.flatMap_append, valueItems_stripAll, List.flatMap_singleton, entryItems_canonical]

private theorem valueItems_filter (h : asArray v = none) :
    (valueItems v).filter (foreign sub) = valueItems v := by
  cases v with
  | arr entries => exact absurd h nofun
  | _ => rfl

theorem items_retired : ∀ p ∈ retiredRecallHooks,
    items (mergeHooks doc (renderHooks bin root)) p.1 = (items doc p.1).filter (foreign p.2) := by
  intro p hp
  have hevent : p.1 ∉ recallHooks.map Prod.fst := by
    intro hmem
    obtain ⟨q, hq, heq⟩ := List.mem_map.mp hmem
    exact retired_ne q hq p hp heq
  have hfold : retiredRecallHooks.foldl retire (userHooks doc) = retire (userHooks doc) p := by
    obtain rfl := List.mem_singleton.mp hp
    rfl
  rw [items, eventValue_unmanaged hevent, hfold, lookup_retire_self, items, eventValue, ← userHooks]
  cases Json.lookup p.1 (userHooks doc) with
  | none => rfl
  | some value =>
    rw [Option.bind_some, Option.map_some, Option.getD_some]
    cases harr : asArray value with
    | none => rw [Option.map_some, Option.getD_some, valueItems_filter harr]
    | some raw =>
      obtain rfl : value = .arr raw := by
        cases value with
        | arr entries => rw [Option.some.inj harr]
        | _ => exact absurd harr nofun
      rw [valueItems, ← valueItems_stripAll]
      simp only
      split
      · next hempty => rw [List.isEmpty_iff.mp hempty]; rfl
      · rfl

/-- The user's items of a managed event are kept when it holds a list, and only then. -/
theorem items_kept_iff (hbin : fileName bin = some (Text.ascii "recall-echo")) (hp : p ∈ recallHooks) :
    (items (mergeHooks doc (renderHooks bin root)) p.1).filter (foreign p.2) =
      (items doc p.1).filter (foreign p.2) ↔ Listed (eventValue doc p.1) := by
  rw [items_managed hp, List.filter_append, List.filter_filter,
    List.filter_cons_of_neg (by simp [recallHook_canonical hbin hp]), List.filter_nil, List.append_nil, items]
  simp only [Bool.and_self]
  cases eventValue doc p.1 with
  | none => exact iff_of_true rfl trivial
  | some value =>
    cases value with
    | arr entries => exact iff_of_true rfl trivial
    | null => exact iff_of_true rfl trivial
    | _ => exact iff_of_false nofun id

theorem items_one (hbin : fileName bin = some (Text.ascii "recall-echo")) (hp : p ∈ recallHooks) :
    (items (mergeHooks doc (renderHooks bin root)) p.1).filter (fun item => !foreign p.2 item) =
      [.hook (.obj []) (canonicalHook bin p.2 root)] := by
  rw [items_managed hp, List.filter_append, List.filter_filter,
    List.filter_cons_of_pos (by simp [recallHook_canonical hbin hp]), List.filter_nil]
  simp

/-- The command of a hook. -/
def itemCommand : Item → Option Bytes
  | .hook _ hook => asStr (index hook commandKey)
  | .entry _ | .value _ => none

private theorem recallCommands_hooks {hooks : List Json} :
    (hooks.filterMap fun hook => asStr (index hook commandKey)).filter (isRecallCommand · sub) =
      ((hooks.map (.hook entry)).filter fun item => !foreign sub item).filterMap itemCommand := by
  induction hooks with
  | nil => rfl
  | cons hook hooks ih =>
    rw [List.filterMap_cons, List.map_cons, List.filter_cons, foreign_hook, Bool.not_not, recallHook]
    cases hcommand : asStr (index hook commandKey) with
    | none => simpa using ih
    | some command =>
      simp only [List.filter_cons]
      split
      · rw [List.filterMap_cons, itemCommand, hcommand, ih]
      · exact ih

/-- The recall-echo commands of an event are those of its items. -/
theorem recallCommands_eq : recallCommands doc event sub =
    ((items doc event).filter fun item => !foreign sub item).filterMap itemCommand := by
  have hentry : ∀ entry : Json, (((asArray (index entry hooksKey)).getD []).filterMap fun hook =>
      asStr (index hook commandKey)).filter (isRecallCommand · sub) =
        ((entryItems entry).filter fun item => !foreign sub item).filterMap itemCommand := by
    intro entry
    unfold entryItems
    cases asArray (index entry hooksKey) with
    | none => rfl
    | some hooks => exact recallCommands_hooks
  have hentries : ∀ entries : List Json, ((entries.flatMap fun entry =>
      (asArray (index entry hooksKey)).getD []).filterMap fun hook =>
        asStr (index hook commandKey)).filter (isRecallCommand · sub) =
          ((entries.flatMap entryItems).filter fun item => !foreign sub item).filterMap itemCommand := by
    intro entries
    induction entries with
    | nil => rfl
    | cons entry entries ih =>
      simp only [List.flatMap_cons, List.filterMap_append, List.filter_append]
      rw [hentry, ih]
  have hvalue : index (index doc hooksKey) event = (eventValue doc event).getD .null := rfl
  rw [recallCommands, hvalue, items]
  cases eventValue doc event with
  | none => rfl
  | some value =>
    cases value with
    | arr entries => exact hentries entries
    | _ => rfl

/-- After a merge the check fails exactly when the report names a hook left in place. -/
theorem hasCanonicalHooks_merged (hbin : fileName bin = some (Text.ascii "recall-echo")) :
    hasCanonicalHooks (mergeHooks doc (renderHooks bin root)) (renderHooks bin root) =
      (leftInPlace (mergeHooks doc (renderHooks bin root))).isNone := by
  have hours : ∀ p ∈ recallHooks, asStr (index (indexAt (index (indexAt (index (renderHooks bin root) p.1) 0)
      hooksKey) 0) commandKey) = some (hookCommand bin p.2 root) := by
    intro p hp
    rw [index_renderHooks p hp]
    simp [indexAt, asArray, canonicalEntry, canonicalHook, index, members, Json.lookup, asStr]
  have hmanaged : ∀ p ∈ recallHooks,
      recallCommands (mergeHooks doc (renderHooks bin root)) p.1 p.2 = [hookCommand bin p.2 root] := by
    intro p hp
    rw [recallCommands_eq, items_one hbin hp]
    simp [itemCommand, canonicalHook, index, members, Json.lookup, asStr]
  have hretired : ∀ p ∈ retiredRecallHooks,
      recallCommands (mergeHooks doc (renderHooks bin root)) p.1 p.2 = [] := by
    intro p hp
    rw [recallCommands_eq, items_retired p hp, List.filter_filter]
    simp
  have hinstalled : (recallHooks.all fun p => match asStr (index (indexAt (index (indexAt (index
      (renderHooks bin root) p.1) 0) hooksKey) 0) commandKey) with
      | none => false
      | some canonical => recallCommands (mergeHooks doc (renderHooks bin root)) p.1 p.2 = [canonical]) = true := by
    refine List.all_eq_true.mpr fun p hp => ?_
    simp only [hours p hp, hmanaged p hp, decide_true]
  have habsent : (retiredRecallHooks.all fun p =>
      (recallCommands (mergeHooks doc (renderHooks bin root)) p.1 p.2).isEmpty) = true := by
    refine List.all_eq_true.mpr fun p hp => ?_
    rw [hretired p hp, List.isEmpty_nil]
  rw [hasCanonicalHooks, hinstalled, habsent, leftInPlace]
  cases hasWrappedConsume (mergeHooks doc (renderHooks bin root)) <;>
    cases consumeLeftInPlace (mergeHooks doc (renderHooks bin root)) <;> rfl

/-- A hook of another program, before one of ours. -/
def sampleDoc : Json :=
  .obj [(hooksKey, .obj [(Text.ascii "PreCompact", .arr [.obj [(hooksKey, .arr
    [.obj [(commandKey, .str (Text.ascii "notify"))]])]])])]

/-- An entry that stands under a managed event without a list around it. -/
def unlistedDoc : Json :=
  .obj [(hooksKey, .obj [(Text.ascii "PreCompact", .obj [(hooksKey, .arr
    [.obj [(commandKey, .str (Text.ascii "notify"))]])])])]

end PulseNull.ClaudeHooks
