import PulseNull.Server.Admission

/-! Admission never raises trust: which identities can become the owner, and on what. -/
namespace PulseNull.Server
open Text (ascii)
open Session (SessionKey)
variable {config : Config} {ledgers : GuestLedgers} {who : AuthIdentity} {req : ChatRequest}

/-- The key of an admitted turn is the resolved one. -/
theorem admitTurn_eq_ok {admitted : Admitted}
    (h : admitTurn config ledgers who req = .ok admitted) :
    resolveKey config who req = .ok admitted.key ∧ admitted.request = req ∧
      admitted.identity = who ∧ validateRequest req = .ok () := by
  simp only [admitTurn, bind_eq_ok, mapError_eq_ok, pure, Except.pure, Except.ok.injEq] at h
  obtain ⟨_, hv, _, _, _, _, _, _, key, hkey, _, _, rfl⟩ := h
  exact ⟨hkey, rfl, rfl, hv⟩

theorem isReservedChannel_owner {channel : Bytes} (h : isOwnerChannel channel = true) :
    isReservedChannel channel = true := by
  simp only [isOwnerChannel, Bool.or_eq_true, decide_eq_true_eq] at h
  rcases h with (rfl | rfl) | rfl <;> decide

/-- Off the owner channels, only an owner identity resolves to the owner. -/
theorem resolveSender_owner {channel : Bytes} {sender : Option Bytes}
    (hc : isOwnerChannel channel = false)
    (h : (resolveSender config channel sender).isOwner = true) :
    ∃ s, sender = some s ∧ isOwnerIdentity s config.owner = true := by
  rw [SessionKey.isOwner_iff] at h
  unfold resolveSender at h
  rw [if_neg (by simp [hc])] at h
  cases sender with
  | none => exact absurd h (SessionKey.guest_ne_owner _)
  | some s =>
    refine ⟨s, rfl, ?_⟩
    by_contra hs
    simp only [if_neg hs] at h
    split at h
    · exact SessionKey.peer_ne_owner _ h
    · exact SessionKey.guest_ne_owner _ h

/-- What a plugin's turn resolved to. -/
theorem resolvePluginKey_eq_ok {bound : Bytes} {key : SessionKey}
    (h : resolvePluginKey config bound req = .ok key) :
    req.channel = bound ∧ isReservedChannel bound = false ∧
      key = if isVoice bound then .guest (req.sender.getD (ascii "anonymous"))
        else resolveSender config bound req.sender := by
  unfold resolvePluginKey at h
  split at h
  · simp at h
  next hc =>
    simp only [Bool.or_eq_true, decide_eq_true_eq, not_or, not_not, Bool.not_eq_true] at hc
    obtain ⟨rfl, hr⟩ := hc
    refine ⟨rfl, hr, ?_⟩
    split at h
    · next hv => rw [if_pos hv, Except.ok.inj h]
    · next hv => rw [if_neg hv, Except.ok.inj h]

/-- What an admitted turn of each identity may be. -/
structure Trusted (config : Config) (who : AuthIdentity) (req : ChatRequest) (key : SessionKey) :
    Prop where
  peer : ∀ name, who = .peer name → key.isOwner = false
  voice : who = .voice → key.isOwner = false
  voiceBound : ∀ name channel, who = .plugin name channel → isVoice channel = true →
    key.isOwner = false
  plugin : ∀ name channel, who = .plugin name channel → key.isOwner = true →
    req.channel = channel ∧ isReservedChannel channel = false ∧ isVoice channel = false ∧
      ∃ sender, req.sender = some sender ∧ isOwnerIdentity sender config.owner = true
  session : key.isOwner = false → key ≠ .owner

/-- Whatever the request and the configuration, a peer, a voice caller or a voice-bound plugin is
not the owner, a plugin's sender is only by an owner identity, and no other key is the owner's. -/
theorem admission_never_raises_trust (config : Config) (ledgers : GuestLedgers)
    (who : AuthIdentity) (req : ChatRequest) (admitted : Admitted)
    (h : admitTurn config ledgers who req = .ok admitted) :
    Trusted config who req admitted.key := by
  obtain ⟨hkey, -⟩ := admitTurn_eq_ok h
  have not_owner {key : SessionKey} (hne : key ≠ .owner) : key.isOwner = false := by
    rw [Bool.eq_false_iff, ne_eq, SessionKey.isOwner_iff]
    exact hne
  refine ⟨?_, ?_, ?_, ?_, ?_⟩
  · rintro name rfl
    rw [← Except.ok.inj hkey]
    exact not_owner (SessionKey.peer_ne_owner name)
  · rintro rfl
    rw [← Except.ok.inj hkey]
    exact not_owner (SessionKey.guest_ne_owner _)
  · rintro name channel rfl hv
    obtain ⟨_, _, hk⟩ := resolvePluginKey_eq_ok hkey
    rw [hk, if_pos hv]
    exact not_owner (SessionKey.guest_ne_owner _)
  · rintro name channel rfl ho
    obtain ⟨hc, hr, hk⟩ := resolvePluginKey_eq_ok hkey
    have hv : isVoice channel = false := by
      by_contra hv
      rw [Bool.not_eq_false] at hv
      rw [hk, if_pos hv, not_owner (SessionKey.guest_ne_owner _)] at ho
      simp at ho
    have hoc : isOwnerChannel channel = false := by
      by_contra hoc
      rw [isReservedChannel_owner (by simpa using hoc)] at hr
      simp at hr
    rw [hk, if_neg (by simp [hv])] at ho
    exact ⟨hc, hr, hv, resolveSender_owner hoc ho⟩
  · intro ho he
    rw [he, SessionKey.isOwner_iff.mpr rfl] at ho
    simp at ho

/-- A request is a peer's exactly when it names a configured peer and presents that peer's
own secret. -/
theorem requireAuth_peer {peerName presented : Option Bytes} {name : Bytes} :
    requireAuth config peerName presented = .ok (.peer name) ↔
      peerName = some name ∧ ∃ peer secret, config.peer name = some peer ∧
        peer.secret = some secret ∧ presented = some secret := by
  have global : identityForGlobalSecret config.security presented ≠ .ok (.peer name) := by
    unfold identityForGlobalSecret
    split
    · simp
    · split <;> (try split) <;> (try split) <;> simp
  unfold requireAuth
  cases peerName with
  | none => simpa using global
  | some n =>
    cases hp : config.peer n with
    | none =>
      simp only [Option.bind_some, hp, Option.bind_none, Option.some.injEq]
      refine iff_of_false global ?_
      rintro ⟨rfl, p, s, hp', _⟩
      rw [hp] at hp'
      simp at hp'
    | some p =>
      cases hs : p.secret with
      | none =>
        simp only [Option.bind_some, hp, hs, Option.map_none, Option.some.injEq]
        refine iff_of_false global ?_
        rintro ⟨rfl, p', s, hp', hs', _⟩
        rw [hp, Option.some.injEq] at hp'
        rw [← hp', hs] at hs'
        simp at hs'
      | some s =>
        simp only [Option.bind_some, hp, hs, Option.map_some, Option.some.injEq]
        by_cases hpr : presented = some s
        · rw [if_pos hpr, Except.ok.injEq, AuthIdentity.peer.injEq]
          constructor
          · rintro rfl
            exact ⟨rfl, p, s, hp, hs, hpr⟩
          · exact fun h => h.1
        · rw [if_neg hpr]
          simp only [reduceCtorEq, false_iff]
          rintro ⟨rfl, p', s', hp', hs', hpr'⟩
          rw [hp, Option.some.injEq] at hp'
          rw [← hp', hs, Option.some.injEq] at hs'
          exact hpr (hs' ▸ hpr')

/-! An owner known by a Discord id, and a plugin bound to another channel. -/

def trustConfig : Config where
  owner := ⟨none, some (ascii "1001"), none⟩
  peers := []
  security := ⟨some (ascii "owner-secret"), none⟩

def smsPlugin : AuthIdentity := .plugin (ascii "sms") (ascii "sms")

def smsRequest : ChatRequest := ⟨ascii "hi", ascii "sms", some (ascii "1001")⟩

theorem discord_id_is_owner_off_discord :
    forPlugin (ascii "sms") (ascii "sms") = .ok smsPlugin ∧
      admitTurn trustConfig (fun _ _ _ => none) smsPlugin smsRequest =
        .ok ⟨.owner, false, smsRequest, smsPlugin⟩ := by
  exact ⟨rfl, rfl⟩

theorem admission_never_raises_trust_sample :
    Trusted trustConfig smsPlugin smsRequest .owner :=
  admission_never_raises_trust trustConfig (fun _ _ _ => none) smsPlugin smsRequest
    ⟨.owner, false, smsRequest, smsPlugin⟩ rfl

end PulseNull.Server
