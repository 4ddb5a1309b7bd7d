import ZkClient.Blocks
import ZkClient.Dialing
import ZkClient.Tokenizer

/-!
# The host part of a server entry

`new_client` splits the server list at its commas, and `do_connect` copies what an entry has in front of its last colon
into a local array of 512 bytes without looking at the length.  `prepareHost` is `prepare` with this array: the two are
the same as long as the host part fits.
-/

namespace ZkClient

/-! ### The server list -/

/-- The server list of `new_client`; `none` when it returns without a client. -/
def serverList (grants : Int → Bool) (zkList : Bytes) : Option (List Bytes) := do
  let x ← sdssplitlen grants zkList [44]
  if x.elements = 0 then none else some x.strings

variable {grants : Int → Bool} {zkList server host port : Bytes} {servers : List Bytes}

/-- The entries are strings. -/
theorem zero_not_mem_serverList (hlist : serverList grants zkList = some servers) (hserver : server ∈ servers) :
    0 ∉ server := by
  obtain ⟨x, -, hx⟩ := Option.bind_eq_some_iff.1 hlist
  split at hx
  · cases hx
  · obtain rfl := Option.some.inj hx
    obtain ⟨t, -, rfl⟩ := List.mem_map.1 hserver
    exact zero_not_mem_cstring _

/-- The entries are what lies between the commas; a list without any is not accepted. -/
theorem serverList_eq_some (hok : ∀ n, grants n = true) (h0 : 0 ∉ zkList) : serverList grants zkList = some servers ↔
    servers = (Cutting.cut [44] zkList).filter (· ≠ []) ∧ servers ≠ [] := by
  obtain ⟨x, hx, hstrings, helements⟩ := sdssplitlen_strings hok (show 1 ≤ ([44] : Bytes).length from le_rfl) h0
  have hlist : serverList grants zkList = if x.elements = 0 then none else some x.strings := by
    rw [serverList, hx]
    rfl
  rw [hlist, helements, hstrings]
  by_cases hnil : (Cutting.cut [44] zkList).filter (· ≠ []) = []
  · rw [hnil, if_pos List.length_nil]
    constructor
    · intro h
      cases h
    · rintro ⟨rfl, hne⟩
      exact absurd rfl hne
  · rw [if_neg (mt List.length_eq_zero_iff.1 hnil), Option.some.injEq, eq_comm]
    constructor
    · rintro rfl
      exact ⟨rfl, hnil⟩
    · exact And.left

/-! ### The array -/

/-- `host` after `memcpy(host, c->servers[i], pos - c->servers[i])` and the terminator. -/
def hostArray (server : Bytes) (pos : Nat) : Block := ((Block.fresh hostSize).copy 0 (server.take pos)).write pos 0

theorem hostArray_eq {pos : Nat} (hpos : pos ≤ server.length) :
    hostArray server pos = Block.place hostSize (server.take pos) := by
  rw [Block.place, List.length_take_of_le hpos, hostArray]

theorem mem_writes_hostArray {pos : Nat} (hpos : pos ≤ server.length) {i : Int} :
    i ∈ (hostArray server pos).writes ↔ 0 ≤ i ∧ i ≤ pos := by
  rw [hostArray_eq hpos, mem_writes_place, List.length_take_of_le hpos]

/-- `prepare`, with the array for the host part. -/
def prepareHost (H : Heap) (server : Bytes) : Zk (Option Int) := do
  match strrchr server 58 with
  | none => return none
  | some pos => do
    let host := hostArray server pos
    if ¬ host.Inside then perform (.undefined (.outOfBounds "host"))
    let c ← perform .load
    let sock ← connectServer (host.string H) (atoi (server.drop (pos + 1))) c.connectTimeout
    if sock = zkError then return none
    perform (.store (.sock sock))
    perform (.store (.state zkStateConnected))
    return some sock

theorem inside_hostArray {pos : Nat} (hpos : pos ≤ server.length) : (hostArray server pos).Inside ↔ pos < hostSize := by
  rw [hostArray_eq hpos, inside_place, List.length_take_of_le hpos]

theorem string_hostArray {H : Heap} {pos : Nat} (h0 : 0 ∉ server) (hpos : pos ≤ server.length) (hfits : pos < hostSize) :
    (hostArray server pos).string H = server.take pos := by
  rw [hostArray_eq hpos]
  exact string_place (fun h => h0 (List.mem_of_mem_take h)) (by rwa [List.length_take_of_le hpos])

/-- The array makes no difference when the host part fits. -/
theorem prepareHost_eq {H : Heap} (h0 : 0 ∉ server) (hfits : ∀ pos, strrchr server 58 = some pos → pos < hostSize) :
    prepareHost H server = prepare server := by
  unfold prepareHost prepare
  cases hpos : strrchr server 58 with
  | none => rfl
  | some pos =>
    have hle := (strrchr_lt hpos).le
    dsimp only
    rw [string_hostArray h0 hle (hfits pos hpos), if_neg (not_not.2 ((inside_hostArray hle).2 (hfits pos hpos))),
      if_neg (Nat.not_le.2 (hfits pos hpos))]

/-! ### The passes of `do_connect` -/

variable {H : Heap} {w : World} {v : Rotation.Visit World}

/-- What the pass `v` is to do with the entry `server`: it goes on with the array, which holds the part `host` before the
last colon with a terminator, and of which no byte from 512 on is written. -/
structure TakenApart (H : Heap) (v : Rotation.Visit World) (server host : Bytes) : Prop where
  pass : exec H (prepareHost H server >>= enter H) v.before = (v.done, v.after)
  colon : strrchr server 58 = some host.length
  text : (hostArray server host.length).string H = host
  nul : (hostArray server host.length).cells[host.length]? = some (some 0)
  inside : ∀ i ∈ (hostArray server host.length).writes, 0 ≤ i ∧ i < 512

/-- An entry is taken apart in bounds when its host part has at most 511 bytes. -/
theorem doConnect_takes_apart_iff (hlist : serverList grants zkList = some servers) (hw : w.client.servers = servers)
    (hv : v ∈ connectVisits H w) (hentry : serverAt servers v.index = host ++ 58 :: port) (hlast : 58 ∉ port) :
    TakenApart H v (host ++ 58 :: port) host ↔ host.length ≤ 511 := by
  subst hw
  have hcolon : strrchr (host ++ 58 :: port) 58 = some host.length := strrchr_append hlast host
  have hle : host.length ≤ (host ++ 58 :: port).length := by rw [List.length_append]; omega
  have htake : (host ++ 58 :: port).take host.length = host := List.take_left
  have h0 : 0 ∉ host ++ 58 :: port := by
    intro hmem
    rw [← hentry, serverAt] at hmem
    cases hget : w.client.servers[v.index]? with
    | none =>
      rw [hget] at hmem
      cases hmem
    | some server =>
      rw [hget] at hmem
      exact zero_not_mem_serverList hlist (List.mem_of_getElem? hget) hmem
  constructor
  · intro h
    have := h.inside host.length ((mem_writes_hostArray hle).2 (by omega))
    omega
  · intro hshort
    have hfits : host.length < hostSize := Nat.lt_succ_of_le hshort
    have hattempt := connectVisits_attempt hv
    rw [hentry, connectTo_eq] at hattempt
    refine ⟨?_, hcolon, ?_, ?_, ?_⟩
    · rw [prepareHost_eq h0]
      · exact hattempt
      · intro pos hpos
        rw [hcolon] at hpos
        exact Option.some.inj hpos ▸ hfits
    · rw [string_hostArray h0 hle hfits, htake]
    · rw [hostArray_eq hle, htake, cells_place hfits, List.getElem?_append_right (by simp)]
      simp
    · intro i hi
      have := (mem_writes_hostArray hle).1 hi
      omega

/-- A client of one server. -/
private def oneServer (server : Bytes) : World := World.idle (initClient [server] 10 3 0 0 0)

private theorem serverList_one (server : Bytes) (hne : server ≠ []) (h0 : 0 ∉ server) (hcomma : 44 ∉ server) :
    serverList (fun _ => true) server = some [server] := by
  refine (serverList_eq_some (fun _ => rfl) h0).2 ⟨?_, List.cons_ne_nil _ _⟩
  rw [Cutting.cut_of_not_mem hcomma]
  simp [hne]

theorem doConnect_takes_apart_short : ∃ v ∈ connectVisits .plenty (oneServer [104, 58, 49]),
    (TakenApart .plenty v ([104] ++ 58 :: [49]) [104] ↔ [(104 : UInt8)].length ≤ 511) := by
  have hvisit : ∃ v ∈ connectVisits .plenty (oneServer [104, 58, 49]), v.index = 0 :=
    ⟨_, List.mem_cons_self .., rfl⟩
  obtain ⟨v, hv, hindex⟩ := hvisit
  exact ⟨v, hv, doConnect_takes_apart_iff (serverList_one _ (by decide) (by decide) (by decide)) rfl hv
    (by rw [hindex]; rfl) (by decide)⟩

/-- The terminator for a host part of 512 bytes is written behind the array. -/
theorem doConnect_overruns : ¬ ∀ (grants : Int → Bool) (zkList : Bytes) (servers : List Bytes) (H : Heap) (w : World)
    (v : Rotation.Visit World) (host port : Bytes), serverList grants zkList = some servers → w.client.servers = servers →
    v ∈ connectVisits H w → serverAt servers v.index = host ++ 58 :: port → 58 ∉ port →
    TakenApart H v (host ++ 58 :: port) host := by
  intro hall
  obtain ⟨host, hhost⟩ : ∃ host : Bytes, host = List.replicate 512 97 := ⟨_, rfl⟩
  have hmem : ∀ c ∈ host ++ 58 :: [49], c = 97 ∨ c = 58 ∨ c = 49 := by
    intro c hc
    rcases List.mem_append.1 hc with hc | hc
    · rw [hhost] at hc
      exact .inl (List.eq_of_mem_replicate hc)
    · exact .inr (by simpa using hc)
  have hvisit : ∃ v ∈ connectVisits .plenty (oneServer (host ++ 58 :: [49])), v.index = 0 :=
    ⟨_, List.mem_cons_self .., rfl⟩
  obtain ⟨v, hv, hindex⟩ := hvisit
  have hlist := serverList_one (host ++ 58 :: [49]) (by simp)
    (fun h => absurd (hmem 0 h) (by decide)) (fun h => absurd (hmem 44 h) (by decide))
  have htaken := hall _ _ _ .plenty (oneServer (host ++ 58 :: [49])) v host [49] hlist rfl hv
    (by rw [hindex]; rfl) (by decide)
  have hlen : host.length = 512 := by rw [hhost, List.length_replicate]
  have hle : host.length ≤ (host ++ 58 :: [49]).length := by
    rw [List.length_append]
    omega
  have := htaken.inside host.length ((mem_writes_hostArray hle).2 (by omega))
  omega

end ZkClient
