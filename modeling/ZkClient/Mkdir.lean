import ZkClient.Lib.PathTree
import ZkClient.Replies
import ZkClient.Wire

/-!
# Creating a path

`zk_mkdir` against a server that keeps a tree of paths (`PathTree.Server`), with other clients active between any two
messages.  `Serves` says that every create of the recursion reaches the server and is answered; under it a run of
`zk_mkdir` is a run of `PathTree.Server.mkdir` (`run_zkMkdir`).  A server behind the wire format serves every path that
fits into a request (`Session.serves`).
-/

namespace ZkClient

open PathTree Pthread

/-! ### Paths -/

/-- A name in a path. -/
abbrev Name : Type := { bytes : Bytes // bytes ≠ [] ∧ slash ∉ bytes ∧ 0 ∉ bytes }

/-- The string `/n1/../nk`. -/
def pathBytes (p : List Name) : Bytes := p.flatMap fun n => slash :: n.1

private theorem pathBytes_concat (p : List Name) (n : Name) : pathBytes (p ++ [n]) = pathBytes p ++ slash :: n.1 := by
  simp [pathBytes]

theorem strrchr_pathBytes (p : List Name) (n : Name) :
    strrchr (pathBytes (p ++ [n])) slash = some (pathBytes p).length := by
  rw [pathBytes_concat]
  exact strrchr_append n.2.2.1 _

theorem nul_not_mem_pathBytes (p : List Name) : (0 : UInt8) ∉ pathBytes p := by
  intro h
  obtain ⟨n, -, hn⟩ := List.mem_flatMap.1 h
  rcases List.mem_cons.1 hn with hs | hn
  · exact absurd hs (by decide)
  · exact n.2.2.2 hn

/-! ### The answers of the server -/

/-- An error with which the server refuses a create that it could have accepted. -/
abbrev Refusal : Type := { err : Int32 // err ≠ 0 ∧ err.toInt ≠ zNoNode ∧ err.toInt ≠ zNodeExists }

/-- The error field of the reply. -/
def errorField : Answer Refusal → Int32
  | .ok => 0
  | .noNode => -101
  | .exists => -110
  | .refused e => e.1

/-- The status of a create with the given answer. -/
def statusOf (a : Answer Refusal) : Int := (errorField a).toInt

private theorem errorField_refused (e : Refusal) : e.1.toInt ≠ 0 := fun h => e.2.1 (Int32.toInt.inj h)

theorem statusOf_eq_ok {a : Answer Refusal} : statusOf a = zkOk ↔ a = .ok := by
  cases a with
  | refused e => simp [statusOf, errorField, errorField_refused e]
  | ok | noNode | «exists» => simp [statusOf, errorField]

theorem statusOf_eq_noNode {a : Answer Refusal} : statusOf a = zNoNode ↔ a = .noNode := by
  cases a with
  | refused e => simpa [statusOf, errorField] using e.2.2.1
  | ok | noNode | «exists» => simp [statusOf, errorField]

theorem statusOf_eq_exists {a : Answer Refusal} : statusOf a = zNodeExists ↔ a = .exists := by
  cases a with
  | refused e => simpa [statusOf, errorField] using e.2.2.2
  | ok | noNode | «exists» => simp [statusOf, errorField]

/-! ### The recursion -/

section Recursion

variable {σ : Type} {H : Heap} {h : Handler σ} {server : σ → Server Name Refusal} {sch : Schedule Name Refusal}

/-- The create request of `zk_mkdir` for one path. -/
def createNode (H : Heap) (path : Bytes) : Zk Int := zkCreate H (some path) none 0 0

/-- In the surroundings `h`, every create for the path or an ancestor of it reaches the server and is answered. -/
def Serves (H : Heap) (h : Handler σ) (server : σ → Server Name Refusal) (sch : Schedule Name Refusal)
    (path : List Name) : Prop :=
  ∀ p, p <+: path → ∀ s, ((createNode H (pathBytes p)).run h s).1 = statusOf ((server s).create sch p).1 ∧
    server ((createNode H (pathBytes p)).run h s).2 = ((server s).create sch p).2

private theorem run_zkMkdir_concat (p : List Name) (n : Name) (s : σ) :
    (zkMkdir H (some (pathBytes (p ++ [n])))).run h s =
      let first := (createNode H (pathBytes (p ++ [n]))).run h s
      if first.1 = zNoNode then
        let parent := (zkMkdir H (some (pathBytes p))).run h first.2
        if parent.1 = zkOk then (createNode H (pathBytes (p ++ [n]))).run h parent.2 else parent
      else first := by
  have htake : (pathBytes (p ++ [n])).take (pathBytes p).length = pathBytes p := by
    rw [pathBytes_concat, List.take_left]
  unfold zkMkdir createNode
  dsimp only
  rw [zkMkdirWith_eq, strrchr_pathBytes]
  simp only [htake, Prog.run_bind, run_ite, Prog.run_pure]

/-- `zk_mkdir` runs as the `mkdir` of the server. -/
theorem run_zkMkdir {path : List Name} (hserves : Serves H h server sch path) (s : σ) :
    ((zkMkdir H (some (pathBytes path))).run h s).1 = statusOf ((server s).mkdir sch path).1 ∧
      server ((zkMkdir H (some (pathBytes path))).run h s).2 = ((server s).mkdir sch path).2 := by
  induction path using List.reverseRecOn generalizing s with
  | nil =>
    obtain ⟨hstatus, hserver⟩ := hserves [] (List.prefix_refl _) s
    have hne : ((createNode H (pathBytes [])).run h s).1 ≠ zNoNode := by
      rw [hstatus, ne_eq, statusOf_eq_noNode]
      simp [Server.create, Server.request, Server.answer]
    unfold createNode at hne hstatus hserver
    unfold zkMkdir
    dsimp only
    rw [zkMkdirWith_eq, Prog.run_bind, if_neg hne, Prog.run_pure, Server.mkdir_nil]
    dsimp only
    exact ⟨hstatus, hserver⟩
  | append_singleton p n ih =>
    have hcreate := hserves (p ++ [n]) (List.prefix_refl _)
    have hparent := ih fun q hq => hserves q (hq.trans (List.prefix_append p [n]))
    obtain ⟨hstatus, hserver⟩ := hcreate s
    rw [run_zkMkdir_concat]
    dsimp only
    generalize hfirst : (createNode H (pathBytes (p ++ [n]))).run h s = first at hstatus hserver ⊢
    obtain ⟨hstatus', hserver'⟩ := hparent first.2
    rw [hserver] at hstatus' hserver'
    generalize (zkMkdir H (some (pathBytes p))).run h first.2 = parent at hstatus' hserver' ⊢
    rcases Server.mkdir_concat sch p n (server s) with ⟨hno, he⟩ | ⟨hfirst, hno, he⟩ | ⟨hfirst, hok, he⟩
    all_goals rw [he]
    · rw [if_neg (by rwa [hstatus, statusOf_eq_noNode])]
      exact ⟨hstatus, hserver⟩
    · rw [if_pos (by rwa [hstatus, statusOf_eq_noNode]), if_neg (by rwa [hstatus', statusOf_eq_ok])]
      exact ⟨hstatus', hserver'⟩
    · rw [if_pos (by rwa [hstatus, statusOf_eq_noNode]), if_pos (by rwa [hstatus', statusOf_eq_ok]), ← hserver']
      exact hcreate parent.2

/-! ### The results of `zk_mkdir` -/

/-- What `zk_mkdir` promises for `path` when nobody else is active: its status, the tree `t` that it found, the tree
`t'` that it leaves, and the creates it has sent. -/
structure MakesPath (path : List Name) (status : Int) (t t' : PathTree.Tree Name)
    (log : List (Record Name Refusal)) : Prop where
  ok_iff : status = zkOk ↔ path ∉ t ∧ ∀ c ∈ log, ∀ e, c.answer ≠ .refused e
  ok_tree : status = zkOk → ∀ p, p ∈ t' ↔ p ∈ t ∨ p <+: path
  exists_iff : status = zNodeExists ↔ path ∈ t
  exists_tree : status = zNodeExists → t' = t
  /-- The deepest ancestor that was there is `a`, and the ancestors down to `b` are new. -/
  refused : ∀ c ∈ log, ∀ e : Refusal, c.answer = .refused e → status = e.1.toInt ∧
    ∃ a b, a <+: b ∧ b <+: path ∧ b ≠ path ∧ a ∈ t ∧ (∀ p, p <+: path → p ∈ t → p <+: a) ∧
      ∀ p, p ∈ t' ↔ p ∈ t ∨ (a <+: p ∧ p ≠ a ∧ p <+: b)
  length_log : log.length ≤ 2 * path.length + 1

/-- **`zk_mkdir` alone.** -/
theorem zkMkdir_alone {path : List Name} (hne : path ≠ []) (hserves : Serves H h server sch path)
    (hsch : ∀ i, sch.others i = []) {s : σ} (hs : (server s).Fresh) (hroot : [] ∈ (server s).tree) :
    let r := (zkMkdir H (some (pathBytes path))).run h s
    MakesPath path r.1 (server s).tree (server r.2).tree (server r.2).log := by
  intro r
  obtain ⟨hstatus, hserver⟩ := run_zkMkdir hserves s
  have hout := Server.mkdir_alone hsch hne hroot
  have hanswers : ∀ x : Answer Refusal, x ≠ .ok → x ≠ .noNode → (_ ↔ _) := fun x hok hno =>
    Server.mkdir_answer sch hok hno path hs
  have hlength := Server.mkdir_length_log sch path (server s)
  rw [hs.2, List.length_nil, Nat.zero_add] at hlength
  rw [hserver]
  rw [show r.1 = _ from hstatus]
  generalize (server s).mkdir sch path = m at hout hanswers hlength
  obtain ⟨a, s'⟩ := m
  have hrefused : ∀ c ∈ s'.log, ∀ e, c.answer = .refused e → a = .refused e := fun c hc e he =>
    (hanswers (.refused e) (by simp) (by simp)).2 ⟨c, hc, he⟩
  dsimp only at hout hlength ⊢
  generalize s'.tree = t' at hout
  cases hout with
  | present hthere =>
    refine ⟨?_, ?_, ?_, fun _ => rfl, fun c hc e he => ?_, hlength⟩
    · rw [statusOf_eq_ok]
      simp [hthere]
    · exact fun hok => absurd (statusOf_eq_ok.1 hok) (by simp)
    · rw [statusOf_eq_exists]
      simp [hthere]
    · exact absurd (hrefused c hc e he) (by simp)
  | created hmissing hmem =>
    refine ⟨?_, fun _ => hmem, ?_, ?_, fun c hc e he => ?_, hlength⟩
    · rw [statusOf_eq_ok]
      exact ⟨fun _ => ⟨hmissing, fun c hc e he => absurd (hrefused c hc e he) (by simp)⟩, fun _ => rfl⟩
    · rw [statusOf_eq_exists]
      simp [hmissing]
    · exact fun hex => absurd (statusOf_eq_exists.1 hex) (by simp)
    · exact absurd (hrefused c hc e he) (by simp)
  | refused e b hmissing hb hbne hdeep hmem =>
    obtain ⟨c, hc, he⟩ := (hanswers (.refused e) (by simp) (by simp)).1 rfl
    refine ⟨?_, ?_, ?_, ?_, fun c' hc' e' he' => ?_, hlength⟩
    · rw [statusOf_eq_ok]
      exact ⟨fun hok => absurd hok (by simp), fun hno => absurd he (hno.2 c hc e)⟩
    · exact fun hok => absurd (statusOf_eq_ok.1 hok) (by simp)
    · rw [statusOf_eq_exists]
      simp [hmissing]
    · exact fun hex => absurd (statusOf_eq_exists.1 hex) (by simp)
    · obtain rfl : e = e' := by simpa using hrefused c' hc' e' he'
      obtain ⟨d, hd, hdt, hmax⟩ := Tree.exists_deepest hroot path
      refine ⟨rfl, d, b, hdeep d hd hdt, hb, hbne, hdt, hmax, fun p => ?_⟩
      rw [hmem, Tree.mem_or_prefix hd hb hdt]

/-- The status of `zk_mkdir` is true of some moment of the run. -/
def Truthful (path : List Name) (status : Int) (s : Server Name Refusal) : Prop :=
  status = zkOk ∨ status = zNodeExists → ∃ t ∈ s.moments, path ∈ t

/-- Every create sent for a proper ancestor of the path finds the ancestor absent. -/
def AncestorsAbsent (path : List Name) (s : Server Name Refusal) : Prop :=
  ∀ c ∈ s.log, c.path ≠ [] → c.path ≠ path → c.path ∉ c.tree

/-- **`zk_mkdir` under concurrency.**  It tells the truth in every run in which the ancestors it creates are absent; in
any other run it answers `ZNODEEXISTS`, whether or not the path has existed. -/
theorem zkMkdir_truthful {path : List Name} (hserves : Serves H h server sch path) {s : σ} (hs : (server s).Fresh) :
    let r := (zkMkdir H (some (pathBytes path))).run h s
    (AncestorsAbsent path (server r.2) → Truthful path r.1 (server r.2)) ∧
      (¬ AncestorsAbsent path (server r.2) → r.1 = zNodeExists) := by
  intro r
  obtain ⟨hstatus, hserver⟩ := run_zkMkdir hserves s
  have hrecorded := Server.mkdir_recorded sch path hs.recorded
  have hexists := Server.mkdir_answer sch (x := .exists) (by simp) (by simp) path hs
  rw [show r.1 = _ from hstatus, hserver, statusOf_eq_exists, hexists]
  refine ⟨fun habsent hok => ?_, fun hpresent => ?_⟩
  · rw [statusOf_eq_ok, statusOf_eq_exists, hexists] at hok
    rcases hok with hok | ⟨c, hc, he⟩
    · exact Server.mkdir_ok sch hok
    · obtain ⟨hsound, hmoment⟩ := hrecorded c hc
      obtain ⟨hpath, hthere⟩ := hsound.exists.1 he
      by_cases hc' : c.path = path
      · exact ⟨c.tree, hmoment, hc' ▸ hthere⟩
      · exact absurd hthere (habsent c hc hpath hc')
  · unfold AncestorsAbsent at hpresent
    push Not at hpresent
    obtain ⟨c, hc, hpath, -, hthere⟩ := hpresent
    exact ⟨c, hc, (hrecorded c hc).1.exists.2 ⟨hpath, hthere⟩⟩

end Recursion

/-! ### A server behind the wire format -/

/-- The names of a path, if the path is absolute and well-formed. -/
def splitPath (path : Bytes) : Option (List Name) :=
  match path.splitOn slash with
  | [] :: names => names.mapM fun b => if h : b ≠ [] ∧ slash ∉ b ∧ 0 ∉ b then some ⟨b, h⟩ else none
  | _ => none

theorem splitPath_pathBytes (p : List Name) : splitPath (pathBytes p) = some p := by
  have hsplit : ∀ (p : List Name) (b : Bytes), slash ∉ b → (b ++ pathBytes p).splitOn slash = b :: p.map Subtype.val := by
    intro p
    induction p with
    | nil =>
      intro b hb
      rw [show pathBytes [] = [] from rfl, List.append_nil, List.splitOn_eq_singleton hb, List.map_nil]
    | cons n p ih =>
      intro b hb
      rw [show pathBytes (n :: p) = slash :: (n.1 ++ pathBytes p) from rfl,
        List.splitOn_append_cons_self_of_not_mem hb, ih n.1 n.2.2.1, List.map_cons]
  have hnames : (p.map Subtype.val).mapM (m := Option)
      (fun b => if h : b ≠ [] ∧ slash ∉ b ∧ 0 ∉ b then some (⟨b, h⟩ : Name) else none) = some p := by
    induction p with
    | nil => rfl
    | cons n p ih =>
      rw [List.map_cons, List.mapM_cons, dif_pos n.2, ih]
      rfl
  have h := hsplit p [] (by simp)
  rw [List.nil_append] at h
  unfold splitPath
  rw [h]
  exact hnames

/-- One connection to the server: the client, and the reply that it has not received yet. -/
structure Session where
  server : Server Name Refusal
  client : Client
  xid : Int32
  reply : Bytes

namespace Session

/-- The transaction id and the path of a create request. -/
def decodeCreate (H : Heap) (payload : Bytes) : Option (Int32 × Bytes) :=
  let header := deserializeRequestHeader (archiveAt payload 0) ⟨0, 0⟩
  let req := deserializeCreateRequest H header.ia ⟨none, .of none, defaultAcl, 0⟩
  if header.rc = 0 ∧ header.val.type = createOpcode ∧ req.rc = 0 then req.val.path.map (header.val.xid, ·) else none

/-- The reply to a create request for `path`. -/
def replyTo (xid : Int32) (path : Bytes) (a : Answer Refusal) : Bytes :=
  ReplyHeader.wire ⟨xid, 0, errorField a⟩ ++ if errorField a = 0 then [wireString (some path)].flatten else []

/-- The server takes a create when it arrives and lets the others act before the client receives the reply. -/
def handle (H : Heap) (sch : Schedule Name Refusal) : Handler Session
  | .getXid, s => (s.xid, { s with xid := s.xid + 1 })
  | .load, s => (s.client, s)
  | .store u, s => ((), { s with client := s.client.assign u })
  | .sendRequest payload, s =>
    match decodeCreate H payload with
    | none => (zkSocketErr, s)
    | some (xid, path) =>
      let r := s.server.request sch ((splitPath path).getD [])
      (zkOk, { s with server := r.2, reply := replyTo xid path r.1 })
  | .recvResponse, s => (some (archiveAt s.reply 0), { s with server := s.server.turn sch })
  | .time, s => (0, s)
  | .rand, s => (0, s)
  | .pingTid, s => (s.client.pingTid, s)
  | .socket, s => (-1, s)
  | .gethostbyname _, s => (false, s)
  | .inetPton _, s => (false, s)
  | .connect _ _, s => ((-1, 0), s)
  | .poll _ _, s => ((0, 0), s)
  | .close _, s => ((), s)
  | .usleep, s => ((), s)
  | .join _, s => ((), s)
  | .printf _ _, s => ((), s)
  | .undefined _, s => ((), s)
  | .exit, s => ((), s)

variable {H : Heap} (sch : Schedule Name Refusal)

private theorem length_wire (path : Bytes) : (Operation.create path none 0 0).wire.length = path.length + 39 := by
  simp [Operation.wire, Operation.payload, Operation.aclWire, wireString, wireVector, world, anyone]
  omega

/-- The server understands the create requests of the client. -/
private theorem decodeCreate_wire (hH : H.Succeeds) (path : Bytes) (hlt : path.length + 64 < 2 ^ 29) (xid : Int32) :
    decodeCreate H (RequestHeader.wire ⟨xid, createOpcode⟩ ++ (Operation.create path none 0 0).wire) =
      some (xid, path) := by
  obtain ⟨ia, hheader, hreq⟩ := Operation.decodesFrom_wire hH (.create path none 0 0) xid (by rw [length_wire]; omega)
  obtain ⟨_, hheader⟩ := hheader ⟨0, 0⟩
  obtain ⟨_, hreq⟩ := hreq ⟨none, .of none, defaultAcl, 0⟩
  simp only [Operation.opcode] at hheader hreq
  simp only [decodeCreate, hheader, hreq]
  rfl

private theorem length_replyTo (xid : Int32) (path : Bytes) (a : Answer Refusal) :
    (replyTo xid path a).length ≤ path.length + 20 := by
  have hheader : (ReplyHeader.wire ⟨xid, 0, errorField a⟩).length = 16 := by simp [ReplyHeader.wire]
  unfold replyTo
  rw [List.length_append, hheader]
  split <;> simp [wireString]
  omega

/-- A server with the wire format of the client serves every path that fits into a request. -/
theorem serves (hH : H.Succeeds) {path : List Name} (hlt : (pathBytes path).length + 64 < 2 ^ 29) :
    Serves H (handle H sch) Session.server sch path := by
  intro p hp s
  have hple : (pathBytes p).length ≤ (pathBytes path).length := by
    obtain ⟨q, rfl⟩ := hp
    simp [pathBytes]
  let op : Operation := .create (pathBytes p) none 0 0
  have hop : op.Valid := ⟨nul_not_mem_pathBytes p, fun _ h => by cases h⟩
  have hwire : op.wire.length + 8 < 2 ^ 29 := by
    rw [length_wire]
    omega
  let a := (s.server.request sch p).1
  let sent : Session :=
    { s with xid := s.xid + 1, server := (s.server.request sch p).2, reply := replyTo s.xid (pathBytes p) a }
  have hsend : handle H sch (.sendRequest (RequestHeader.wire ⟨s.xid, createOpcode⟩ ++ op.wire))
      { s with xid := s.xid + 1 } = (zkOk, sent) := by
    unfold handle
    simp only [op, decodeCreate_wire hH (pathBytes p) (by omega), splitPath_pathBytes, Option.getD_some]
    rfl
  have hreply : (replyTo s.xid (pathBytes p) a).length < 2 ^ 31 := by
    have := length_replyTo s.xid (pathBytes p) a
    omega
  have hresp : op.ValidResponse (pathBytes p) := nul_not_mem_pathBytes p
  have hrun := @Operation.run_served H _ (handle H sch) hH op hop hwire _ hresp ⟨s.xid, 0, errorField a⟩ _ hreply rfl
    s sent { sent with server := sent.server.turn sch } hsend rfl
  have hcreate : (op.run H).run (handle H sch) s =
      ((((createNode H (pathBytes p)).run (handle H sch) s).1, none),
        ((createNode H (pathBytes p)).run (handle H sch) s).2) := by
    simp only [op, Operation.run, createNode, Prog.run_bind, Prog.run_pure]
  rw [hcreate, Prod.mk.injEq, Prod.mk.injEq] at hrun
  obtain ⟨⟨hstatus, -⟩, hstate⟩ := hrun
  refine ⟨hstatus, ?_⟩
  rw [hstate]
  rfl

end Session

/-! ### Another client makes the parent -/

private def nameA : Name := ⟨[97], by decide⟩

private def nameB : Name := ⟨[98], by decide⟩

private def rootTree : PathTree.Tree Name :=
  { nodes := {[]}, closed := fun p n h => absurd (Finset.mem_singleton.1 h) (by simp) }

/-- The client before it calls `zk_mkdir`, and a server that has only the root. -/
private def beforeMkdir : Session :=
  { server := { tree := rootTree, time := 0, earlier := [], log := [] }, client := initClient [] 10 3 0 0 0, xid := 1
    reply := [] }

private def quiet : Schedule Name Refusal :=
  { refuse := fun _ => none, malformed := ⟨-8, by decide⟩, others := fun _ => [] }

/-- The parent appears while the first answer is under way. -/
private def race : Schedule Name Refusal := { quiet with others := fun i => if i = 1 then [.create [nameA]] else [] }

private theorem serves_ab (sch : Schedule Name Refusal) :
    Serves Heap.plenty (Session.handle Heap.plenty sch) Session.server sch [nameA, nameB] :=
  Session.serves sch Heap.plenty_succeeds (by decide)

theorem zkMkdir_alone_ab :
    let r := (zkMkdir Heap.plenty (some (pathBytes [nameA, nameB]))).run (Session.handle Heap.plenty quiet) beforeMkdir
    MakesPath [nameA, nameB] r.1 rootTree r.2.server.tree r.2.server.log :=
  zkMkdir_alone (by decide) (serves_ab quiet) (fun _ => rfl) ⟨rfl, rfl⟩ (by decide)

theorem zkMkdir_truthful_ab :
    let r := (zkMkdir Heap.plenty (some (pathBytes [nameA, nameB]))).run (Session.handle Heap.plenty race) beforeMkdir
    (AncestorsAbsent [nameA, nameB] r.2.server → Truthful [nameA, nameB] r.1 r.2.server) ∧
      (¬ AncestorsAbsent [nameA, nameB] r.2.server → r.1 = zNodeExists) :=
  zkMkdir_truthful (serves_ab race) ⟨rfl, rfl⟩

/-- `zk_mkdir` reports that the path exists when only its parent does. -/
theorem zkMkdir_parent_race :
    ¬ ∀ (σ : Type) (H : Heap) (h : Handler σ) (server : σ → Server Name Refusal) (sch : Schedule Name Refusal)
      (path : List Name) (s : σ), Serves H h server sch path → (server s).Fresh →
      let r := (zkMkdir H (some (pathBytes path))).run h s
      Truthful path r.1 (server r.2) := by
  intro hall
  have htrue := hall Session Heap.plenty (Session.handle Heap.plenty race) Session.server race [nameA, nameB] beforeMkdir
    (serves_ab race) ⟨rfl, rfl⟩
  obtain ⟨hstatus, hserver⟩ := run_zkMkdir (serves_ab race) beforeMkdir
  have hanswer : (beforeMkdir.server.mkdir race [nameA, nameB]).1 = .exists := by decide
  have hnever : ∀ t ∈ (beforeMkdir.server.mkdir race [nameA, nameB]).2.moments, [nameA, nameB] ∉ t := by decide
  rw [hanswer] at hstatus
  obtain ⟨t, ht, hthere⟩ := htrue (.inr hstatus)
  rw [hserver] at ht
  exact hnever t ht hthere

end ZkClient
