import ZkClient.Exclusion
import ZkClient.Relaying
import ZkClient.Replies

/-!
# Replies and requests

Commands, tab completion and pings over one connection, one operation at a time: the server answers every complete
request once, in order, with the xid of the request and after any delay, so a wait for a reply may end in a timeout.
The client never looks at the xid of a reply.  What keeps replies and requests together is that `processCommand` resets
the connection after a command whose wait has timed out; nobody does that after a ping or a completion.

All threads follow the discipline `relaying`, so one of them knows how things stand on the connection and the others
have nothing there (`Relayed`).  From this every reply goes to the operation that has sent its request
(`Link.correlated`).
-/

namespace ZkClient

open Pthread

/-! ### The connection -/

/-- A complete request: its number on the connection and its bytes. -/
structure Message where
  number : Nat
  payload : Bytes
  deriving DecidableEq

/-- A reply that an operation has received: the request of the operation, and the one that the reply answers. -/
structure Reception where
  own : Message
  answered : Message
  reply : IArchive

/-- What the threads share.  `pending` are the complete requests whose replies are unread, `own` is the last complete
request of each thread, and `timedOut` says that a wait for a reply has timed out on the connection. -/
structure Link where
  client : Client
  count : Nat
  pending : List Message
  own : Nat → Option Message
  timedOut : Bool
  received : List Reception

/-- The archive holds a reply to the request `q`: a frame with its xid and the rest of a header. -/
def replies (q : Message) (ia : IArchive) : Bool :=
  match ia.buffer with
  | some bs => ia.off = 0 ∧ ia.len = bs.length ∧ 16 ≤ bs.length ∧ bs.length < 2 ^ 31 ∧ bs.take 4 = q.payload.take 4
  | none => false

namespace Link

/-- `c->sock` gets a new socket, or none; what was on the old one is gone. -/
def store (l : Link) (u : Update) : Link :=
  match u with
  | .sock _ => { l with client := l.client.assign u, pending := [], timedOut := false }
  | _ => { l with client := l.client.assign u }

/-- The thread `t` has sent a complete request. -/
def send (l : Link) (t : Nat) (payload : Bytes) : Link :=
  let q : Message := ⟨l.count, payload⟩
  { l with count := l.count + 1, pending := l.pending ++ [q], own := Function.update l.own t (some q) }

/-- A wait for a reply has ended in a timeout. -/
def timeout (l : Link) : Link := { l with client := l.client.assign (.lastErr zkSocketErr), timedOut := true }

/-- The thread `t` gets the oldest unread reply; without memory for the archive it is read all the same. -/
def receive (l : Link) (t : Nat) (r : Option IArchive) : List Link :=
  match l.own t, l.pending with
  | some own, q :: rest =>
    match r with
    | some ia =>
      if replies q ia then [{ l with pending := rest, received := l.received ++ [⟨own, q, ia⟩] }] else []
    | none => [{ l with pending := rest }]
  | _, _ => []

/-- Where an answer to the thread `t` leads.  A request that is not sent completely counts as not sent; the first way
in which `recv_response` can give no archive is the timeout. -/
def effect (t : Nat) (e : Eff) (l : Link) (r : e.Resp) : List Link :=
  match e, r with
  | .load, c => if c = l.client then [l] else []
  | .pingTid, tid => if tid = l.client.pingTid then [l] else []
  | .store u, _ => [l.store u]
  | .sendRequest payload, rc =>
    if rc = zkOk then [l.send t payload]
    else if rc = zkError ∨ rc = zkSocketErr then [{ l with client := l.client.assign (.lastErr rc) }]
    else []
  | .recvResponse, none => l.timeout :: l.receive t none
  | .recvResponse, some ia => l.receive t (some ia)
  | .exit, _ => []
  | _, _ => [l]

end Link

/-- The reply answers the request of the operation, and it has its xid. -/
def Reception.Correlated (x : Reception) : Prop :=
  x.answered = x.own ∧
    ∀ v, (deserializeReplyHeader x.reply v).val.xid = BigEndian.ofBe32 (x.own.payload.take 4)

/-! ### The threads -/

/-- What a thread takes up, with the memory that it meets. -/
inductive Errand where
  | command (H : Heap) (args : List Bytes)
  | completion (H : Heap) (line : Bytes)
  | ping (H : Heap)

def Errand.prog : Errand → Zk Bool
  | command H args => do
    processCommand H args
    return true
  | completion H line => do
    let _ ← ZkClient.completion H line
    return true
  | ping H => do
    let _ ← zkPing H
    return true

def Errand.isCommand : Errand → Bool
  | command _ _ => true
  | _ => false

/-- Commands and completions are for thread 0, pings for the others. -/
def relays : System Eff Eff.Resp Errand Link where
  prog := Errand.prog
  takes t j := match j with
    | .ping _ => t ≠ 0
    | _ => t = 0
  effect := Link.effect
  cancelPoint _ := false

/-- A new connection of the client `c`, with a ping thread. -/
def relaysStart (c : Client) : State Eff Eff.Resp Errand Link where
  threads t := if t < 2 then .idle else .gone
  owner := none
  cancelled _ := false
  fresh := 2
  shared := { client := c, count := 0, pending := [], own := fun _ => none, timedOut := false, received := [] }

/-- In the middle of an operation: a ping, or between `send_request` and `recv_response`. -/
def midway (s : State Eff Eff.Resp Errand Link) (t : Nat) : Bool :=
  if t = 0 then exchanging (s.threads 0)
  else match s.threads t with
    | .idle => false
    | .gone => false
    | _ => true

/-- While a thread is in the middle of an operation, no other thread goes on. -/
def OneAtATime (s : State Eff Eff.Resp Errand Link) (a : Act Eff Eff.Resp Errand) : Prop :=
  ∀ t, t ≠ a.thread → midway s t = false

/-- Only the waits of commands time out, and no ping is sent between such a timeout and the reset after it. -/
def Prompt (s : State Eff Eff.Resp Errand Link) : Act Eff Eff.Resp Errand → Prop
  | .answer t .recvResponse none 0 => ∀ j k, s.threads t = .inside j .recvResponse k → j.isCommand
  | .go t => ∀ j payload k, t ≠ 0 → s.threads t = .ready j (.op (.sendRequest payload) k) → s.shared.timedOut = false
  | _ => True

/-! ### Threads and the connection -/

/-- The discipline of the thread `t` with the errand `j`. -/
private abbrev relayingAt (t : Nat) (j : Errand) : Discipline Eff Eff.Resp Phase :=
  relaying j.isCommand (if t = 0 then .clean else .done)

private theorem relaying_errand {t : Nat} {j : Errand} (h : relays.takes t j) :
    j.prog.Follows (relayingAt t j) (relayingAt t j).stop .clean := by
  cases j with
  | command H args =>
    have ht : t = 0 := of_decide_eq_true h
    subst ht
    refine (relaying_processCommand args).bind ?_
    rintro - φ rfl
    exact .inl rfl
  | completion H line =>
    have ht : t = 0 := of_decide_eq_true h
    subst ht
    refine (relaying_completion line).bind ?_
    rintro offered φ rfl
    exact .inl rfl
  | ping H =>
    have ht : t ≠ 0 := of_decide_eq_true h
    simp only [relayingAt, if_neg ht]
    exact relaying_ping.bind fun _ _ hφ => hφ

/-- What the phase of the thread `t` says about the connection. -/
def Link.Agrees (l : Link) (t : Nat) : Phase → Prop
  | .clean => l.pending = []
  | .sending => l.pending = []
  | .sent => ∃ q, l.pending = [q] ∧ l.own t = some q
  | .done => t ≠ 0 ∧ l.pending = []
  | .stale => t = 0 ∧ l.client.lastErr = zkSocketErr ∧ l.timedOut = true

private theorem rests_after (t : Nat) : (if t = 0 then Phase.clean else .done).Rests := by
  split <;> constructor <;> nofun

/-- Who is not between `send_request` and `recv_response` rests. -/
private theorem rests_of_thread {x : Thread Eff Eff.Resp Errand} {t : Nat} {φ : Phase}
    (h : x.Follows (relayingAt t) .clean φ) (hx : exchanging x = false) : φ.Rests := by
  have hclean : Phase.clean.Rests := rests_after 0
  have henter : ∀ {j : Errand} {e : Eff} {φ₀ φ' : Phase}, e ≠ .recvResponse → (relayingAt t j).enter e φ₀ φ' →
      φ₀.Rests ∧ (φ' = φ₀ ∨ ∃ payload, e = .sendRequest payload) := by
    intro j e φ₀ φ' hne henter
    cases e with
    | recvResponse => exact absurd rfl hne
    | sendRequest payload => exact ⟨henter.1 ▸ hclean, .inr ⟨payload, rfl⟩⟩
    | store u =>
      cases u with
      | lastErr err => exact ⟨henter.1 ▸ rests_after t, .inl (henter.2.trans henter.1.symm)⟩
      | sock fd =>
        refine ⟨?_, .inl henter.2⟩
        rcases henter.1.1 with h | h <;> subst h <;> constructor <;> nofun
      | _ => exact ⟨henter.1, .inl henter.2⟩
    | _ => exact ⟨henter.1, .inl henter.2⟩
  cases x with
  | idle =>
    rw [show φ = .clean from h]
    exact hclean
  | gone =>
    rw [show φ = .clean from h]
    exact hclean
  | inside j e k =>
    obtain ⟨⟨φ₀, hφ⟩, -⟩ := h
    have hne : e ≠ .recvResponse := by
      rintro rfl
      cases hx
    obtain ⟨hrests, rfl | ⟨payload, rfl⟩⟩ := henter hne hφ
    · exact hrests
    · cases hx
  | ready j p =>
    cases p with
    | ret more =>
      rcases (show φ = .clean ∨ φ = .done from h) with rfl | rfl <;> constructor <;> nofun
    | op e k =>
      obtain ⟨φ', hφ, -⟩ := h
      have hne : e ≠ .recvResponse := by
        rintro rfl
        cases hx
      exact (henter hne hφ).1
    | lock k => exact h.choose_spec.1.1
    | unlock k => exact h.choose_spec.1.1
    | trylock k => exact h.choose_spec.1.1
    | create k => exact h.choose_spec.1.1.1
    | cancel u k => exact h.choose_spec.1.1

private theorem goes_relaying {t : Nat} {j : Errand} {p : Zk Bool} {φ φ' : Phase}
    (h : (relayingAt t j).Goes .clean p φ φ') :
    φ' = φ ∨ (φ = .done ∧ φ' = .clean) ∨
      φ = .clean ∧ φ' = .sending ∧ ∃ payload k, p = .op (.sendRequest payload) k := by
  cases p with
  | ret more =>
    obtain ⟨rfl | rfl, rfl⟩ := h
    · exact .inl rfl
    · exact .inr (.inl ⟨rfl, rfl⟩)
  | op e k =>
    cases e with
    | sendRequest payload => exact .inr (.inr ⟨h.1, h.2, payload, k, rfl⟩)
    | recvResponse => exact .inl (h.2.trans h.1.symm)
    | store u =>
      cases u with
      | lastErr err => exact .inl (h.2.trans h.1.symm)
      | _ => exact .inl h.2
    | _ => exact .inl h.2
  | _ => exact .inl h.2

/-- The next step of a thread changes its phase when it enters `send_request` and when it ends its job. -/
private theorem advance_relaying {s s' : State Eff Eff.Resp Errand Link} {t : Nat} {j : Errand} {p : Zk Bool}
    {φ : Phase} (hp : p.Follows (relayingAt t j) (relayingAt t j).stop φ) (h : System.advance s t j p = some s') :
    ∃ φ', (s'.threads t).Follows (relayingAt t) .clean φ' ∧ (φ' = φ ∨ (φ = .done ∧ φ' = .clean) ∨
      φ = .clean ∧ φ' = .sending ∧ ∃ payload k, p = .op (.sendRequest payload) k) := by
  obtain ⟨φ', hgoes, hth⟩ : ∃ φ', (relayingAt t j).Goes .clean p φ φ' ∧
      (s'.threads t).Follows (relayingAt t) .clean φ' := System.advance_follows hp h
  exact ⟨φ', hth, goes_relaying hgoes⟩

/-- The operations whose answers leave the requests and the replies as they are. -/
private def Eff.Apart : Eff → Prop
  | sendRequest _ => False
  | recvResponse => False
  | exit => False
  | store (.sock _) => False
  | store (.lastErr _) => False
  | _ => True

private theorem effect_apart {l l' : Link} {t : Nat} {e : Eff} {r : e.Resp} (he : e.Apart)
    (h : l' ∈ l.effect t e r) : l' = { l with client := l'.client } ∧ l'.client.lastErr = l.client.lastErr := by
  cases e with
  | sendRequest payload => exact he.elim
  | recvResponse => exact he.elim
  | exit => exact he.elim
  | store u =>
    have hstore : l' = l.store u := List.mem_singleton.1 h
    subst hstore
    cases u with
    | sock fd => exact he.elim
    | lastErr err => exact he.elim
    | _ => exact ⟨rfl, rfl⟩
  | load =>
    simp only [Link.effect] at h
    split at h
    · rw [List.mem_singleton.1 h]
      exact ⟨rfl, rfl⟩
    · cases h
  | pingTid =>
    simp only [Link.effect] at h
    split at h
    · rw [List.mem_singleton.1 h]
      exact ⟨rfl, rfl⟩
    · cases h
  | _ =>
    rw [List.mem_singleton.1 h]
    exact ⟨rfl, rfl⟩

/-- What is read of the client is what it is. -/
private theorem leave_apart {l l' : Link} {t : Nat} {e : Eff} {r : e.Resp} {late : Bool} {after φ : Phase}
    (he : e.Apart) (h : l' ∈ l.effect t e r) (hstale : φ = .stale → l.client.lastErr = zkSocketErr) :
    (relaying late after).leave e r φ φ := by
  cases e with
  | sendRequest payload => exact he.elim
  | recvResponse => exact he.elim
  | exit => exact he.elim
  | load =>
    simp only [Link.effect] at h
    split at h
    · rename_i heq
      refine ⟨rfl, fun hφ => ?_⟩
      rw [show r = l.client from heq]
      exact hstale hφ
    · cases h
  | store u =>
    cases u with
    | sock fd => exact he.elim
    | _ => rfl
  | _ => rfl

/-- A reply to the request of the operation has its xid. -/
private theorem correlated_of_replies {q : Message} {ia : IArchive} (h : replies q ia = true) :
    (⟨q, q, ia⟩ : Reception).Correlated := by
  refine ⟨rfl, fun v => ?_⟩
  unfold replies at h
  split at h
  · rename_i bs hbuffer
    obtain ⟨hoff, hlen, hlong, hlt, hxid⟩ := of_decide_eq_true h
    have hia : ia = archiveAt bs 0 := by
      cases ia
      simp_all [archiveAt]
    obtain ⟨header, tail, hbs⟩ := exists_replyHeader hlong
    obtain ⟨slots, hread⟩ := reads_replyHeader header
    show (deserializeReplyHeader ia v).val.xid = BigEndian.ofBe32 (q.payload.take 4)
    have htake : bs.take 4 = BigEndian.be32 header.xid := by
      rw [hbs, ReplyHeader.wire, List.flatten_cons, List.append_assoc]
      exact List.take_left' (BigEndian.length_be32 _)
    rw [hia, hread bs 0 tail v hlt (Nat.zero_le _) hbs, ← hxid, htake, BigEndian.ofBe32_be32]
  · cases h

/-- A reply is read by the thread that waits for it. -/
private theorem receive_relaying {l l' : Link} {t : Nat} {r : Option IArchive} {q : Message} (hpending : l.pending = [q])
    (hown : l.own t = some q) (hcorr : ∀ x ∈ l.received, x.Correlated) (h : l' ∈ l.receive t r) :
    l'.pending = [] ∧ ∀ x ∈ l'.received, x.Correlated := by
  simp only [Link.receive, hown, hpending] at h
  cases r with
  | none =>
    rw [List.mem_singleton.1 h]
    exact ⟨rfl, hcorr⟩
  | some ia =>
    simp only at h
    split at h
    · rename_i hreplies
      rw [List.mem_singleton.1 h]
      refine ⟨rfl, fun x hx => ?_⟩
      rcases List.mem_append.1 hx with hx | hx
      · exact hcorr x hx
      · rw [List.mem_singleton.1 hx]
        exact correlated_of_replies hreplies
    · cases h

private theorem Link.agrees_rest {l : Link} {t : Nat} (h : l.pending = []) :
    l.Agrees t (if t = 0 then .clean else .done) := by
  split
  · exact h
  · exact ⟨‹_›, h⟩

/-- A request is the only one on its way. -/
private theorem effect_send {l l' : Link} {t : Nat} {payload : Bytes} {rc : Int} (hpending : l.pending = [])
    (h : l' ∈ l.effect t (.sendRequest payload) rc) :
    l'.Agrees t (if rc = zkOk then .sent else .clean) ∧ l'.received = l.received := by
  simp only [Link.effect] at h
  split at h
  · rename_i hok
    rw [List.mem_singleton.1 h, if_pos hok]
    refine ⟨⟨⟨l.count, payload⟩, ?_, Function.update_self ..⟩, rfl⟩
    show l.pending ++ _ = _
    rw [hpending, List.nil_append]
  · rename_i hok
    rw [if_neg hok]
    split at h
    · rw [List.mem_singleton.1 h]
      exact ⟨hpending, rfl⟩
    · cases h

/-- A reply ends the exchange; without one the request may stay on its way, when a command waits for it. -/
private theorem effect_recv {l l' : Link} {t : Nat} {j : Errand} {r : Option IArchive} {i : Nat}
    (htakes : relays.takes t j) (hagrees : l.Agrees t .sent) (hcorr : ∀ x ∈ l.received, x.Correlated)
    (hcommand : r = none → i = 0 → j.isCommand) (heff : (l.effect t .recvResponse r)[i]? = some l') :
    ∃ φ', (relayingAt t j).leave .recvResponse r .sent φ' ∧ l'.Agrees t φ' ∧ ∀ x ∈ l'.received, x.Correlated := by
  obtain ⟨q, hpending, hown⟩ := hagrees
  have hreply : l' ∈ l.receive t r → ∃ φ', (relayingAt t j).leave .recvResponse r .sent φ' ∧ l'.Agrees t φ' ∧
      ∀ x ∈ l'.received, x.Correlated := by
    intro hreceive
    obtain ⟨hempty, hcorr'⟩ := receive_relaying hpending hown hcorr hreceive
    exact ⟨_, .inl rfl, Link.agrees_rest hempty, hcorr'⟩
  cases r with
  | some ia => exact hreply (List.mem_of_getElem? heff)
  | none =>
    cases i with
    | succ i => exact hreply (List.mem_of_getElem? (i := i) heff)
    | zero =>
      have hj := hcommand rfl rfl
      have ht : t = 0 := by
        cases j with
        | ping H => cases hj
        | command H args => exact of_decide_eq_true htakes
        | completion H line => exact of_decide_eq_true htakes
      have hl' : l.timeout = l' := Option.some.inj heff
      subst hl'
      exact ⟨.stale, .inr ⟨⟨hj, rfl⟩, rfl⟩, ⟨ht, rfl, rfl⟩, hcorr⟩

/-- The answer to an operation of the thread whose phase describes the connection. -/
private theorem answer_relaying {s : State Eff Eff.Resp Errand Link} {l' : Link} {t : Nat} {j : Errand} {e : Eff}
    {k : e.Resp → Zk Bool} {r : e.Resp} {i : Nat} {φ : Phase} (hth : s.threads t = .inside j e k)
    (htakes : relays.takes t j) (hfollows : (Thread.inside j e k).Follows (relayingAt t) .clean φ)
    (hagrees : s.shared.Agrees t φ) (hcorr : ∀ x ∈ s.shared.received, x.Correlated)
    (hprompt : Prompt s (.answer t e r i)) (heff : (s.shared.effect t e r)[i]? = some l') :
    ∃ φ', (k r).Follows (relayingAt t j) (relayingAt t j).stop φ' ∧ l'.Agrees t φ' ∧
      ∀ x ∈ l'.received, x.Correlated := by
  have hmem := List.mem_of_getElem? heff
  obtain ⟨⟨φ₀, henter⟩, hk⟩ := hfollows
  suffices hleave : ∃ φ', (relayingAt t j).leave e r φ φ' ∧ l'.Agrees t φ' ∧ ∀ x ∈ l'.received, x.Correlated by
    obtain ⟨φ', hφ', hstate⟩ := hleave
    exact ⟨φ', hk r φ' hφ', hstate⟩
  have hapart : e.Apart → ∃ φ', (relayingAt t j).leave e r φ φ' ∧ l'.Agrees t φ' ∧
      ∀ x ∈ l'.received, x.Correlated := by
    intro he
    obtain ⟨hl', herr⟩ := effect_apart he hmem
    refine ⟨φ, leave_apart he hmem fun h => ?_, ?_, ?_⟩
    · rw [h] at hagrees
      exact hagrees.2.1
    · rw [hl']
      cases φ with
      | stale => exact ⟨hagrees.1, herr.trans hagrees.2.1, hagrees.2.2⟩
      | _ => exact hagrees
    · rw [hl']
      exact hcorr
  cases e with
  | sendRequest payload =>
    obtain ⟨-, rfl⟩ := henter
    obtain ⟨hsent, hreceived⟩ := effect_send hagrees hmem
    exact ⟨_, rfl, hsent, hreceived ▸ hcorr⟩
  | recvResponse =>
    obtain ⟨-, rfl⟩ := henter
    refine effect_recv htakes hagrees hcorr ?_ heff
    rintro rfl rfl
    exact hprompt j k hth
  | exit => cases hmem
  | store u =>
    cases u with
    | sock fd =>
      have hl' : l' = s.shared.store (.sock fd) := List.mem_singleton.1 hmem
      rw [hl']
      exact ⟨.clean, rfl, rfl, hcorr⟩
    | lastErr err =>
      obtain ⟨-, rfl⟩ := henter
      have hpending : s.shared.pending = [] := by
        by_cases ht : t = 0
        · rwa [if_pos ht] at hagrees
        · rw [if_neg ht] at hagrees
          exact hagrees.2
      have hl' : l' = s.shared.store (.lastErr err) := List.mem_singleton.1 hmem
      rw [hl']
      exact ⟨_, rfl, Link.agrees_rest hpending, hcorr⟩
    | _ => exact hapart trivial
  | _ => exact hapart trivial

/-- The answer to an operation of a ping thread that has not sent its request yet. -/
private theorem answer_ping {l l' : Link} {t : Nat} {j : Errand} {e : Eff} {k : e.Resp → Zk Bool} {r : e.Resp}
    (ht : t ≠ 0) (hfollows : (Thread.inside j e k).Follows (relayingAt t) .clean .clean)
    (hmem : l' ∈ l.effect t e r) :
    (k r).Follows (relayingAt t j) (relayingAt t j).stop .clean ∧ l' = { l with client := l'.client } ∧
      l'.client.lastErr = l.client.lastErr := by
  obtain ⟨⟨φ₀, henter⟩, hk⟩ := hfollows
  have he : e.Apart := by
    cases e with
    | sendRequest payload => cases henter.2
    | recvResponse => cases henter.2
    | exit => cases hmem
    | store u =>
      cases u with
      | sock fd => exact absurd henter.1.2 (by simp [ht])
      | lastErr err => exact absurd henter.2 (by simp [ht])
      | _ => trivial
    | _ => trivial
  exact ⟨hk r .clean (leave_apart he hmem nofun), effect_apart he hmem⟩

/-! ### Runs -/

/-- What the steps preserve: one thread knows how things stand on the connection, and the others have nothing there. -/
structure Relayed (s : State Eff Eff.Resp Errand Link) : Prop where
  assigned : relays.Assigned s
  active : ∃ t φ, (s.threads t).Follows (relayingAt t) .clean φ ∧ s.shared.Agrees t φ ∧
    ∀ u, u ≠ t → (s.threads u).Follows (relayingAt u) .clean .clean
  correlated : ∀ x ∈ s.shared.received, x.Correlated

/-- A step of the thread whose phase describes the connection. -/
private theorem Relayed.step_active {s s' : State Eff Eff.Resp Errand Link} {a : Act Eff Eff.Resp Errand} {φ : Phase}
    (hs : Relayed s) (hprompt : Prompt s a) (hstep : relays.Step s a s')
    (hfollows : (s.threads a.thread).Follows (relayingAt a.thread) .clean φ) (hagrees : s.shared.Agrees a.thread φ)
    (hothers : ∀ u, u ≠ a.thread → (s.threads u).Follows (relayingAt u) .clean .clean) : Relayed s' := by
  have hset : ∀ {x : Thread Eff Eff.Resp Errand} {l' : Link} {φ' : Phase},
      x.Follows (relayingAt a.thread) .clean φ' → l'.Agrees a.thread φ' → (∀ x ∈ l'.received, x.Correlated) →
      relays.Assigned { s.set a.thread x with shared := l' } → Relayed { s.set a.thread x with shared := l' } := by
    intro x l' φ' hx hagrees' hcorr hassigned
    refine ⟨hassigned, ⟨a.thread, φ', ?_, hagrees', fun u hu => ?_⟩, hcorr⟩
    · show ((s.set a.thread x).threads a.thread).Follows _ _ _
      rwa [State.set_same]
    · show ((s.set a.thread x).threads u).Follows _ _ _
      rw [State.set_other s x hu]
      exact hothers u hu
  have hassigned := hstep.assigned hs.assigned
  cases hstep with
  | @take t j hth htakes =>
    have hφ : φ = .clean := by
      change (s.threads t).Follows (relayingAt t) .clean φ at hfollows
      rw [hth] at hfollows
      exact hfollows
    subst hφ
    have hfresh := relaying_errand htakes
    exact @hset _ s.shared .clean hfresh hagrees hs.correlated hassigned
  | @go t j p s' hth hadv =>
    change (s.threads t).Follows (relayingAt t) .clean φ at hfollows
    rw [hth] at hfollows
    obtain ⟨φ', hfollows', hφ'⟩ := advance_relaying hfollows hadv
    have hshared := (System.advance_frame hadv).1
    refine ⟨hassigned, ⟨t, φ', hfollows', ?_, fun u hu => System.advance_other hu hadv (hothers u hu)⟩, ?_⟩
    · rw [hshared]
      rcases hφ' with rfl | ⟨rfl, rfl⟩ | ⟨rfl, rfl, -⟩
      · exact hagrees
      · exact hagrees.2
      · exact hagrees
    · rw [hshared]
      exact hs.correlated
  | @answer t j e k r i l' hth heff =>
    change (s.threads t).Follows (relayingAt t) .clean φ at hfollows
    have htakes := hs.assigned t j (by rw [hth]; rfl)
    rw [hth] at hfollows
    obtain ⟨φ', hk, hagrees', hcorr⟩ := answer_relaying hth htakes hfollows hagrees hs.correlated hprompt heff
    exact hset hk hagrees' hcorr hassigned
  | die hth hcancelled hpoint => cases hpoint

/-- A step of a ping thread while a command thread has a reply to leave behind. -/
private theorem Relayed.step_stale {s s' : State Eff Eff.Resp Errand Link} {a : Act Eff Eff.Resp Errand}
    (hs : Relayed s) (hprompt : Prompt s a) (hstep : relays.Step s a s') (ha : a.thread ≠ 0)
    (hfollows : (s.threads 0).Follows (relayingAt 0) .clean .stale) (hagrees : s.shared.Agrees 0 .stale)
    (hothers : ∀ u, u ≠ 0 → (s.threads u).Follows (relayingAt u) .clean .clean) : Relayed s' := by
  have hset : ∀ {x : Thread Eff Eff.Resp Errand} {l' : Link}, x.Follows (relayingAt a.thread) .clean .clean →
      l' = { s.shared with client := l'.client } → l'.client.lastErr = s.shared.client.lastErr →
      relays.Assigned { s.set a.thread x with shared := l' } → Relayed { s.set a.thread x with shared := l' } := by
    intro x l' hx hl' herr hassigned
    refine ⟨hassigned, ⟨0, .stale, ?_, ⟨rfl, herr.trans hagrees.2.1, ?_⟩, fun u hu => ?_⟩, ?_⟩
    · show ((s.set a.thread x).threads 0).Follows _ _ _
      rwa [State.set_other s x (Ne.symm ha)]
    · rw [hl']
      exact hagrees.2.2
    · show ((s.set a.thread x).threads u).Follows _ _ _
      by_cases hut : u = a.thread
      · rw [hut, State.set_same]
        exact hx
      · rw [State.set_other s x hut]
        exact hothers u hu
    · show ∀ x ∈ l'.received, x.Correlated
      rw [hl']
      exact hs.correlated
  have hassigned := hstep.assigned hs.assigned
  have hping := hothers a.thread ha
  cases hstep with
  | take hth htakes => exact @hset _ s.shared (relaying_errand htakes) rfl rfl hassigned
  | @go t j p s' hth hadv =>
    change (s.threads t).Follows (relayingAt t) .clean .clean at hping
    rw [hth] at hping
    obtain ⟨φ', hfollows', hφ'⟩ := advance_relaying hping hadv
    obtain ⟨hshared, -, hframe⟩ := System.advance_frame hadv
    have hclean : φ' = .clean := by
      rcases hφ' with rfl | ⟨h, -⟩ | ⟨-, -, payload, k, rfl⟩
      · rfl
      · cases h
      · -- a ping is not sent before the reset
        have htimed := hprompt j payload k ha hth
        rw [hagrees.2.2] at htimed
        cases htimed
    subst hclean
    have hframe0 : (s'.threads 0).Follows (relayingAt 0) .clean .stale := by
      rcases hframe 0 (Ne.symm ha) with h | ⟨⟨k, rfl⟩, -⟩
      · rwa [h]
      · -- a ping thread starts no thread
        obtain ⟨φ', ⟨⟨-, hafter⟩, -⟩, -⟩ := hping
        rw [if_neg (show t ≠ 0 from ha)] at hafter
        cases hafter
    refine ⟨hassigned, ⟨0, .stale, hframe0, hshared ▸ hagrees, fun u hu => ?_⟩, hshared ▸ hs.correlated⟩
    by_cases hut : u = t
    · subst hut
      exact hfollows'
    · exact System.advance_other hut hadv (hothers u hu)
  | @answer t j e k r i l' hth heff =>
    change (s.threads t).Follows (relayingAt t) .clean .clean at hping
    rw [hth] at hping
    obtain ⟨hk, hl', herr⟩ := answer_ping ha hping (List.mem_of_getElem? heff)
    exact hset hk hl' herr hassigned
  | die hth hcancelled hpoint => cases hpoint

theorem Relayed.step {s s' : State Eff Eff.Resp Errand Link} {a : Act Eff Eff.Resp Errand} (hs : Relayed s)
    (halone : OneAtATime s a) (hprompt : Prompt s a) (hstep : relays.Step s a s') : Relayed s' := by
  obtain ⟨t, φ, hfollows, hagrees, hothers⟩ := hs.active
  by_cases ht : a.thread = t
  · subst ht
    exact hs.step_active hprompt hstep hfollows hagrees hothers
  have hmidway := halone t (Ne.symm ht)
  -- when another thread goes on, the active one is between two operations
  have hclean : φ = .clean ∨ t = 0 ∧ φ = .stale := by
    by_cases h0 : t = 0
    · subst h0
      have hrests := rests_of_thread hfollows hmidway
      cases φ with
      | clean => exact .inl rfl
      | sending => exact absurd rfl hrests.1
      | sent => exact absurd rfl hrests.2
      | done => exact absurd rfl hagrees.1
      | stale => exact .inr ⟨rfl, rfl⟩
    · unfold midway at hmidway
      rw [if_neg h0] at hmidway
      cases hth : s.threads t with
      | idle =>
        rw [hth] at hfollows
        exact .inl hfollows
      | gone =>
        rw [hth] at hfollows
        exact .inl hfollows
      | ready j p =>
        rw [hth] at hmidway
        cases hmidway
      | inside j e k =>
        rw [hth] at hmidway
        cases hmidway
  rcases hclean with rfl | ⟨rfl, rfl⟩
  · refine hs.step_active hprompt hstep (hothers a.thread ht) hagrees fun u hu => ?_
    by_cases hut : u = t
    · rw [hut]
      exact hfollows
    · exact hothers u hut
  · exact hs.step_stale hprompt hstep ht hfollows hagrees hothers

/-- The run of the command thread and one ping thread, none of which starts a thread; `ok` tests the steps further. -/
private def pairActs (ok : State Eff Eff.Resp Errand Link → Act Eff Eff.Resp Errand → Bool)
    (acts : List (Act Eff Eff.Resp Errand)) : Option (State Eff Eff.Resp Errand Link) :=
  relays.runActs (fun s a => a.thread < 2 && !midway s (1 - a.thread) && ok s a &&
    match s.threads a.thread with
    | .ready _ (.create _) => false
    | _ => true) acts (relaysStart (initClient [] 60 3 0 0 1))

private theorem run_of_pairActs {ok : State Eff Eff.Resp Errand Link → Act Eff Eff.Resp Errand → Bool}
    {C : State Eff Eff.Resp Errand Link → Act Eff Eff.Resp Errand → Prop} (hok : ∀ s a, ok s a = true → C s a)
    {acts : List (Act Eff Eff.Resp Errand)} {s : State Eff Eff.Resp Errand Link} (h : pairActs ok acts = some s) :
    relays.Run (fun s a => OneAtATime s a ∧ C s a) (relaysStart (initClient [] 60 3 0 0 1)) s := by
  let D (s : State Eff Eff.Resp Errand Link) (a : Act Eff Eff.Resp Errand) : Prop :=
    a.thread < 2 ∧ midway s (1 - a.thread) = false ∧ C s a ∧ ∀ j k, s.threads a.thread ≠ .ready j (.create k)
  have hrun : relays.Run D (relaysStart (initClient [] 60 3 0 0 1)) s := by
    refine .of_acts (fun s a ha => ?_) .start h
    simp only [Bool.and_eq_true, decide_eq_true_eq, Bool.not_eq_true'] at ha
    refine ⟨ha.1.1.1, ha.1.1.2, hok s a ha.1.2, fun j k hth => ?_⟩
    have hcreate := ha.2
    rw [hth] at hcreate
    cases hcreate
  refine hrun.strengthen (I := fun s => ∀ t, 2 ≤ t → s.threads t = .gone) (fun t ht => ?_) (fun s a s' hs ha hstep => ?_)
    fun s a hs ha => ⟨fun t ht => ?_, ha.2.2.1⟩
  · show (if t < 2 then _ else _) = _
    rw [if_neg (by omega)]
  · exact hstep.unborn ha.1 ha.2.2.2 hs
  · by_cases ht2 : 2 ≤ t
    · simp [midway, hs t ht2, show t ≠ 0 by omega]
    · rw [show t = 1 - a.thread by have := ha.1; omega]
      exact ha.2.1

/-- The requests of a ping and of `ls /`, and replies to them. -/
private def pingRequest : Bytes := [255, 255, 255, 254, 0, 0, 0, 11]
private def pingReply : Bytes := [255, 255, 255, 254, 0, 0, 0, 0, 0, 0, 0, 0, 0, 0, 0, 0]
private def lsRequest : Bytes := [0, 0, 0, 1, 0, 0, 0, 8, 0, 0, 0, 1, 47, 0]
private def lsReply : Bytes := [0, 0, 0, 1, 0, 0, 0, 0, 0, 0, 0, 0, 0, 0, 0, 0, 0, 0, 0, 0]

/-- A ping that is sent. -/
private def sentPing : List (Act Eff Eff.Resp Errand) :=
  [.take 1 (.ping .plenty), .go 1, .go 1, .answer 1 (.sendRequest pingRequest) zkOk 0, .go 1]

/-- `ls /` up to the wait for its reply. -/
private def sentLs : List (Act Eff Eff.Resp Errand) :=
  [.take 0 (.command .plenty [lsCmd, [47]]), .go 0, .answer 0 .getXid 1 0, .go 0, .go 0,
    .answer 0 (.sendRequest lsRequest) zkOk 0, .go 0]

/-- The steps without a timeout. -/
private def timelySteps (s : State Eff Eff.Resp Errand Link) (a : Act Eff Eff.Resp Errand) : Bool :=
  match a with
  | .go _ => !s.shared.timedOut
  | .answer _ .recvResponse none _ => false
  | _ => true

end ZkClient
