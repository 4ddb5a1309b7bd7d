import ZkClient.Dialing

/-!
# Authentications that fail

`authenticate` decodes the response into an uninitialised variable and takes the session over before it looks at the
return code of the decoder.  When the response is cut (`Cut`), the client gets the fields that have come, whatever was
in the variable where the others have not, and fresh memory for a password; that is its old session only where it
happens to coincide (`Coincides`).  The next server of the list is offered what is left.
-/

namespace ZkClient

open Pthread BigEndian Rotation

variable {H : Heap} {w : World}

/-! ### Responses that cannot be decoded -/

/-- How many of the fields in front of the password have come, the length of the password being the fourth. -/
def fieldsReceived (ia : IArchive) : Nat :=
  if sizeT (ia.len - ia.off) < 4 then 0
  else if sizeT (ia.len - (ia.off + 4)) < 4 then 1
  else if sizeT (ia.len - (ia.off + 4 + 4)) < 8 then 2
  else if sizeT (ia.len - (ia.off + 4 + 4 + 8)) < 4 then 3
  else 4

section Left

variable (H : Heap) (ia : IArchive)

/-- The timeout in the variable, and below the session id and the length of the password: the one that has come, or
what was there before. -/
def leftTimeOut : Int32 := if 2 ≤ fieldsReceived ia then ofBe32 ((ia.skip 4).fetch 4) else H.int

def leftSession : Int64 := if 3 ≤ fieldsReceived ia then ofBe64 (((ia.skip 4).skip 4).fetch 8) else H.long

def leftLen : Int32 := if 4 ≤ fieldsReceived ia then ofBe32 ((((ia.skip 4).skip 4).skip 8).fetch 4) else H.int

/-- A field is missing, or a part of the password, or there is no memory for it. -/
def Cut : Prop :=
  fieldsReceived ia < 4 ∨ ia.len - (ia.off + 4 + 4 + 8 + 4) < (leftLen H ia).toInt ∨
    leftLen H ia ≠ -1 ∧ H.ok (.field (ia.off + 4 + 4 + 8 + 4)) (leftLen H ia).toInt = false

end Left

/-- Decoding fails on the cut responses, and this is what it leaves. -/
theorem decodedResponse_cut (ia : IArchive) : ((decodedResponse H ia).rc < 0 ↔ Cut H ia) ∧
    (Cut H ia → (decodedResponse H ia).val.timeOut = leftTimeOut H ia ∧
      (decodedResponse H ia).val.sessionId = leftSession H ia ∧
      (decodedResponse H ia).val.passwd = ⟨leftLen H ia, none⟩) := by
  unfold decodedResponse deserializeConnectResponse Cut leftTimeOut leftSession leftLen fieldsReceived
  by_cases h₀ : sizeT (ia.len - ia.off) < 4
  · simp [readRecord, iaDeserializeInt, iaFixed, h₀, e2big, uninitBuffer]
  by_cases h₁ : sizeT (ia.len - (ia.off + 4)) < 4
  · simp [readRecord, iaDeserializeInt, iaFixed, IArchive.skip, h₀, h₁, e2big, uninitBuffer]
  by_cases h₂ : sizeT (ia.len - (ia.off + 4 + 4)) < 8
  · simp [readRecord, iaDeserializeInt, iaDeserializeLong, iaFixed, IArchive.skip, h₀, h₁, h₂, e2big, uninitBuffer]
  by_cases h₃ : sizeT (ia.len - (ia.off + 4 + 4 + 8)) < 4
  · simp [readRecord, iaDeserializeInt, iaDeserializeLong, iaDeserializeBuffer, iaFixed, IArchive.skip, h₀, h₁, h₂, h₃,
      e2big, uninitBuffer]
  obtain ⟨n, hn⟩ : ∃ n, ofBe32 ((((ia.skip 4).skip 4).skip 8).fetch 4) = n := ⟨_, rfl⟩
  simp only [IArchive.skip] at hn
  by_cases hroom : ia.len - (ia.off + 4 + 4 + 8 + 4) < n.toInt
  · simp [readRecord, iaDeserializeInt, iaDeserializeLong, iaDeserializeBuffer, iaFixed, IArchive.skip, h₀, h₁, h₂, h₃,
      hn, hroom, e2big, uninitBuffer]
  by_cases hnull : n = -1
  · subst hnull
    have hroom' : ¬ ia.len - (ia.off + 4 + 4 + 8 + 4) < -1 := hroom
    simp [readRecord, iaDeserializeInt, iaDeserializeLong, iaDeserializeBuffer, iaFixed, IArchive.skip, h₀, h₁, h₂, h₃,
      hn, hroom', uninitBuffer]
  cases hok : H.ok (.field (ia.off + 4 + 4 + 8 + 4)) n.toInt with
  | true =>
    simp [readRecord, iaDeserializeInt, iaDeserializeLong, iaDeserializeBuffer, iaFixed, IArchive.skip, h₀, h₁, h₂, h₃,
      hn, hroom, hnull, hok, uninitBuffer]
  | false =>
    simp [readRecord, iaDeserializeInt, iaDeserializeLong, iaDeserializeBuffer, iaFixed, IArchive.skip, h₀, h₁, h₂, h₃,
      hn, hroom, hnull, hok, enomem, uninitBuffer]
/-! ### The session -/

/-- The clients have the same session: its id, its timeout, and the length and the bytes of the password. -/
structure SameSession (c c' : Client) : Prop where
  sessionId : c'.sessionId = c.sessionId
  sessionTimeout : c'.sessionTimeout = c.sessionTimeout
  len : c'.passwd.len = c.passwd.len
  bytes : memRead c'.passwd.buff c'.passwd.len.toInt = memRead c.passwd.buff c.passwd.len.toInt

theorem SameSession.refl (c : Client) : SameSession c c := ⟨rfl, rfl, rfl, rfl⟩

theorem SameSession.trans {c c' c'' : Client} (h : SameSession c c') (h' : SameSession c' c'') : SameSession c c'' :=
  ⟨h'.sessionId.trans h.sessionId, h'.sessionTimeout.trans h.sessionTimeout, h'.len.trans h.len, h'.bytes.trans h.bytes⟩

/-- What a cut response leaves happens to be the session of the client.  The password is kept when it has no bytes,
and otherwise exchanged for fresh memory of the same length. -/
structure Coincides (H : Heap) (c : Client) (ia : IArchive) : Prop where
  sessionId : (leftSession H ia).toInt32 = c.sessionId
  sessionTimeout : leftTimeOut H ia = c.sessionTimeout
  len : leftLen H ia = c.passwd.len
  bytes : (blockBytes c.passwd.buff c.passwd.len.toInt).1 = [] ∨
    memRead c.passwd.buff c.passwd.len.toInt =
      if H.ok .passwd c.passwd.len.toInt then some ((List.range c.passwd.len.toInt.toNat).map H.junk) else none

private theorem blockBytes_none (n : Int) : (blockBytes none n).1 = [] := by
  by_cases hn : n = 0 <;> simp [blockBytes, memRead, hn]

private theorem adopted_none (old : Buffer) (n : Int32) :
    ((adopted H old ⟨n, none⟩).len = old.len ∧
      memRead (adopted H old ⟨n, none⟩).buff (adopted H old ⟨n, none⟩).len.toInt = memRead old.buff old.len.toInt) ↔
    n = old.len ∧ ((blockBytes old.buff old.len.toInt).1 = [] ∨ memRead old.buff old.len.toInt =
      if H.ok .passwd old.len.toInt then some ((List.range old.len.toInt.toNat).map H.junk) else none) := by
  by_cases hlen : n = old.len
  swap
  · have hdiff : ¬ SamePasswd old ⟨n, none⟩ := fun h => hlen h.1.symm
    rw [adopted, if_neg hdiff]
    exact iff_of_false (fun h => hlen h.1) fun h => hlen h.1
  subst hlen
  have hsame : SamePasswd old ⟨old.len, none⟩ ↔ (blockBytes old.buff old.len.toInt).1 = [] := by
    rw [SamePasswd, blockBytes_none]
    exact and_iff_right rfl
  by_cases hnil : (blockBytes old.buff old.len.toInt).1 = []
  · rw [adopted, if_pos (hsame.2 hnil)]
    exact iff_of_true ⟨rfl, rfl⟩ ⟨rfl, .inl hnil⟩
  · have hzero : old.len.toInt ≠ 0 := by
      intro h
      rw [h] at hnil
      exact hnil rfl
    have hfresh : memRead (copied H old ⟨old.len, none⟩) old.len.toInt =
        if H.ok .passwd old.len.toInt then some ((List.range old.len.toInt.toNat).map H.junk) else none := by
      unfold copied
      dsimp only
      rw [blockBytes_none]
      cases hok : H.ok .passwd old.len.toInt with
      | false => simp [memRead, hzero]
      | true =>
        have hpos : 0 ≤ old.len.toInt := by
          by_contra hneg
          rw [H.neg _ _ (not_le.1 hneg)] at hok
          cases hok
        have hall := memRead_all ((List.range old.len.toInt.toNat).map H.junk)
        rw [List.length_map, List.length_range, Int.toNat_of_nonneg hpos] at hall
        rw [if_pos rfl, if_pos rfl, List.nil_append, List.length_nil, List.drop_zero, List.take_of_length_le (by simp)]
        exact hall
    rw [adopted, if_neg (mt hsame.1 hnil), hfresh, eq_comm (b := memRead old.buff old.len.toInt)]
    simp only [hnil, true_and, false_or]

/-! ### A failing call -/

/-- What is to hold of a call of `authenticate`. -/
def Restores (H : Heap) (w : World) : Prop :=
  (exec H (authenticate H) w).1 ≠ zkOk → SameSession w.client (exec H (authenticate H) w).2.client

/-- A response that comes and is cut coincides with the session. -/
def Harmless (H : Heap) (w : World) : Prop :=
  ∀ ia, (exec H (offer H w.client) w).1 = .inr ia → Cut H ia → Coincides H w.client ia

theorem restores_iff : Restores H w ↔ Harmless H w := by
  unfold Restores Harmless
  rw [exec_authenticate]
  obtain ⟨e, he⟩ := exec_offer_keeps (H := H) (w := w) w.client
  generalize exec H (offer H w.client) w = r at he ⊢
  obtain ⟨o, w₁⟩ := r
  replace he : w₁.client = { w.client with lastErr := e } := he
  cases o with
  | inl rc =>
    refine iff_of_true (fun _ => ?_) fun ia h => by cases h
    show SameSession w.client w₁.client
    rw [he]
    exact ⟨rfl, rfl, rfl, rfl⟩
  | inr ia =>
    obtain ⟨hrc, hclient, -⟩ := exec_adopt (H := H) ia (show w₁.client.passwd = w.client.passwd by rw [he])
    obtain ⟨hcut, hleft⟩ := decodedResponse_cut (H := H) ia
    show ((exec H (adopt H w.client.passwd ia) w₁).1 ≠ zkOk →
      SameSession w.client (exec H (adopt H w.client.passwd ia) w₁).2.client) ↔ _
    rw [hrc, hclient]
    by_cases hc : Cut H ia
    · have hneg := hcut.2 hc
      have hne : (decodedResponse H ia).rc ≠ zkOk := by
        intro h
        rw [h] at hneg
        exact absurd hneg (by decide)
      obtain ⟨htime, hsession, hpasswd⟩ := hleft hc
      rw [if_pos hneg, htime, hsession, hpasswd]
      have hkept := adopted_none (H := H) w.client.passwd (leftLen H ia)
      constructor
      · intro h ia' hia _
        obtain rfl : ia = ia' := Sum.inr.inj hia
        have hsame := h hne
        obtain ⟨hlen, hbytes⟩ := hkept.1 ⟨hsame.len, hsame.bytes⟩
        exact ⟨hsame.sessionId, hsame.sessionTimeout, hlen, hbytes⟩
      · intro h _
        have hcoin := h ia rfl hc
        obtain ⟨hlen, hbytes⟩ := hkept.2 ⟨hcoin.len, hcoin.bytes⟩
        exact ⟨hcoin.sessionId, hcoin.sessionTimeout, hlen, hbytes⟩
    · rw [if_neg (mt hcut.1 hc)]
      refine iff_of_true (fun h => absurd rfl h) fun ia' hia hc' => absurd ?_ hc
      rwa [Sum.inr.inj hia]

/-! ### The list of servers -/

variable {server : Bytes}

/-- A pass changes nothing of the client before it authenticates but the socket and the state. -/
theorem exec_prepare_client : ∃ sock state,
    (exec H (prepare server) w).2.client = { w.client with sock := sock, state := state } := by
  cases hpos : strrchr server 58 with
  | none =>
    rw [(prepare_skipped hpos).1]
    exact ⟨w.client.sock, w.client.state, rfl⟩
  | some pos =>
    obtain ⟨sock, w₁, l, hdialed, hexec, -⟩ := prepare_dialed (H := H) (w := w) hpos
    have hclient := hdialed.client
    rw [World.overrun_client] at hclient
    rw [hexec]
    split
    · exact ⟨w.client.sock, w.client.state, hclient⟩
    · refine ⟨sock, zkStateConnected, ?_⟩
      rw [← hclient]
      rfl

/-- The session and the last zxid, which is sent with it. -/
private def SameOffer (c c' : Client) : Prop := SameSession c c' ∧ c'.lastZxid = c.lastZxid

private theorem sameOffer_prepare : SameOffer w.client (exec H (prepare server) w).2.client := by
  obtain ⟨sock, state, hclient⟩ := @exec_prepare_client H w server
  rw [hclient]
  exact ⟨⟨rfl, rfl, rfl, rfl⟩, rfl⟩

private theorem sameOffer_connectTo
    (hharm : ∀ sock u, exec H (prepare server) w = (some sock, u) → Harmless H u)
    (hfail : (exec H (connectTo H server) w).1 = false) :
    SameOffer w.client (exec H (connectTo H server) w).2.client := by
  obtain ⟨hsame, hzxid⟩ := @sameOffer_prepare H w server
  rw [connectTo_eq, exec, Prog.run_bind] at hfail ⊢
  obtain ⟨⟨o, u⟩, hprep⟩ : ∃ r, exec H (prepare server) w = r := ⟨_, rfl⟩
  rw [hprep] at hsame hzxid
  rw [exec] at hprep
  rw [hprep] at hfail ⊢
  cases o with
  | none => exact ⟨hsame, hzxid⟩
  | some sock =>
    have henter := exec_enter (H := H) (w := u) sock
    rw [exec] at henter
    rw [henter] at hfail ⊢
    by_cases hrc : (exec H (authenticate H) u).1 = zkOk
    · rw [if_pos hrc] at hfail
      cases hfail
    · rw [if_neg hrc]
      obtain ⟨e, id, t, b, hframe⟩ := exec_authenticate_frame (H := H) (w := u)
      have hrestores : Restores H u := restores_iff.2 (hharm sock u hprep)
      have hkept : SameSession u.client (exec H (authenticate H) u).2.client := hrestores hrc
      rw [hframe] at hkept ⊢
      exact ⟨hsame.trans hkept, hzxid⟩

private theorem SameOffer.serialize {c c' : Client} (h : SameOffer c c') (s : OArchive) :
    serializeConnectRequest H (connectRequest c') s = serializeConnectRequest H (connectRequest c) s := by
  obtain ⟨hsession, hzxid⟩ := h
  have hbuffer : oaSerializeBuffer H c'.passwd = oaSerializeBuffer H c.passwd := by
    funext s
    unfold oaSerializeBuffer
    rw [hsession.bytes, hsession.len]
  simp only [serializeConnectRequest, connectRequest, hzxid, hsession.sessionId, hsession.sessionTimeout, hbuffer]

/-- Every server that `do_connect` tries is offered the session that the client had before. -/
def OffersAlike (H : Heap) (w : World) : Prop :=
  ∀ v ∈ connectVisits H w, ∀ sock u, exec H (prepare (serverAt w.client.servers v.index)) v.before = (some sock, u) →
    SameSession w.client u.client ∧
      ∀ s, serializeConnectRequest H (connectRequest u.client) s = serializeConnectRequest H (connectRequest w.client) s

/-- A call of `authenticate` that fails leaves the session as it was exactly when the response that has come, if any,
is not cut or coincides with the session; when all calls of `do_connect` do, it offers every server the same. -/
theorem authenticate_restores_iff : (Restores H w ↔ Harmless H w) ∧
    ((∀ v ∈ connectVisits H w, ∀ sock u, exec H (prepare (serverAt w.client.servers v.index)) v.before = (some sock, u) →
      Harmless H u) → OffersAlike H w) := by
  refine ⟨restores_iff, fun hharm v hv sock u hprep => ?_⟩
  have hbefore : SameOffer w.client v.before.client := by
    refine connectVisits_inv (I := fun s => SameOffer w.client s.client) ⟨.refl _, rfl⟩
      (fun v hv hbefore hdone => ?_) v hv
    have hattempt := connectVisits_attempt hv
    have hstep := sameOffer_connectTo (hharm v hv) (by rw [hattempt, hdone])
    rw [hattempt] at hstep
    exact ⟨hbefore.1.trans hstep.1, hstep.2.trans hbefore.2⟩
  have hstep := @sameOffer_prepare H v.before (serverAt w.client.servers v.index)
  rw [hprep] at hstep
  have hoffer : SameOffer w.client u.client := ⟨hbefore.1.trans hstep.1, hstep.2.trans hbefore.2⟩
  exact ⟨hoffer.1, hoffer.serialize⟩

/-- A client with a session, in front of a server whose response ends before the session id. -/
private def cutting : World :=
  { World.idle { initClient [] 10 3 0 0 0 with sessionId := 77 } with
    polls := [(1, 4), (1, 1)], writes := List.replicate 60 (.bytes 20)
    stream := frame (List.replicate 8 0), reads := List.replicate 20 (.bytes 20) }

/-- The session is lost although the server has not accepted the client. -/
theorem authenticate_forgets_session : ¬ ∀ (H : Heap) (w : World), Restores H w := by
  intro hall
  have hrestores := hall Heap.plenty cutting (by decide +kernel)
  exact absurd hrestores.sessionId (by decide +kernel)

end ZkClient
