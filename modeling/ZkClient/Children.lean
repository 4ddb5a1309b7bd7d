import ZkClient.Replies

/-!
# Child lists

What `zk_get_children` makes of the body of a reply without an error.  The vector decoder replaces the return code of
its loop by that of `end_vector`, so decoding a list never fails: `zk_get_children` returns `ZK_OK` for every body, and
what it stores is right exactly when the body holds the whole list and every allocation for it succeeds
(`zkGetChildren_complete_iff`).
-/

namespace ZkClient

open BigEndian Pthread

/-- The names in their format, one after the other. -/
def wireNames (names : List Bytes) : Bytes := names.flatMap fun name => wireString (some name)

/-- The body holds the count `n` and behind it as many whole names; a count that is not positive asks for none. -/
def ListsChildren (body : Bytes) (n : Int32) (names : List Bytes) : Prop :=
  names.length = n.toInt.toNat ∧ ∃ rest, body = be32 n ++ (wireNames names ++ rest)

/-- The list that `zk_get_children` stores when it returns `ZK_OK` is the whole list of the body, and a body without one
is refused. -/
structure ListComplete (body : Bytes) (r : Int × Option StringVector) : Prop where
  listed : r.1 = zkOk → ∃ n names v, ListsChildren body n names ∧ r.2 = some v ∧ v.count = n ∧
    ∀ (i : Nat) (name : Bytes), names[i]? = some name → v.data.bind (·[i]?) = some (some name)
  refused : (∀ n names, ¬ ListsChildren body n names) → r.1 ≠ zkOk ∧ r.2 = none

/-- There is memory for the array of a list that starts at the offset `k` of the payload, and for every name in it. -/
def ListStored (H : Heap) (k : Nat) (n : Int32) (names : List Bytes) : Prop :=
  0 < n.toInt → H.ok (.field k) (n.toInt * 8) = true ∧ ∀ pre name post, names = pre ++ name :: post →
    H.ok (.field (k + (wireNames pre).length + 4 : Nat)) (name.length + 1) = true

variable {H : Heap}

@[simp] private theorem wireNames_cons (name : Bytes) (names : List Bytes) :
    wireNames (name :: names) = wireString (some name) ++ wireNames names := rfl

private theorem forall_split_cons {α : Type} {a : α} {l : List α} {Q : List α → α → Prop} :
    (∀ pre x post, a :: l = pre ++ x :: post → Q pre x) ↔
      Q [] a ∧ ∀ pre x post, l = pre ++ x :: post → Q (a :: pre) x := by
  constructor
  · intro h
    refine ⟨h [] a l rfl, fun pre x post hl => h (a :: pre) x post ?_⟩
    rw [hl, List.cons_append]
  · rintro ⟨ha, hl⟩ pre x post h
    cases pre with
    | nil =>
      rw [List.nil_append, List.cons.injEq] at h
      rwa [← h.1]
    | cons b pre =>
      rw [List.cons_append, List.cons.injEq] at h
      rw [← h.1]
      exact hl pre x post h.2

private theorem length_readElems {τ : Type} (elem : Reader τ) (zero : τ) (n : Nat) (rc : Int) (ia : IArchive) :
    (readElems elem zero n rc ia).2.2.1.length = n := by
  induction n generalizing rc ia with
  | zero => rfl
  | succ n ih =>
    unfold readElems
    split
    · exact congrArg (· + 1) (ih _ _)
    · exact congrArg (· + 1) (ih _ _)

/-- The loop over the elements fills in all names when there is memory for them. -/
private theorem readElems_names {buf rest : Bytes} {k : Nat} {names : List Bytes} (hlt : buf.length < 2 ^ 31)
    (hk : k ≤ buf.length) (hsplit : buf.drop k = wireNames names ++ rest) :
    (readElems (iaDeserializeString H "value" fun x _ => x) none names.length 0 (archiveAt buf k)).2.2.1 =
        names.map some ↔
      ∀ pre name post, names = pre ++ name :: post →
        H.ok (.field (k + (wireNames pre).length + 4 : Nat)) (name.length + 1) = true := by
  induction names generalizing k with
  | nil => simp [readElems]
  | cons name names ih =>
    have hsplit' : buf.drop k = wireString (some name) ++ (wireNames names ++ rest) := by
      rw [hsplit, wireNames_cons, List.append_assoc]
    have hstring := string_at H "value" (fun (x : Option Bytes) _ => x) none hlt hk hsplit'
    have hnext : buf.drop (k + (wireString (some name)).length) = wireNames names ++ rest := by
      rw [← List.drop_drop, hsplit', List.drop_left]
    have hk' : k + (wireString (some name)).length ≤ buf.length := by
      have hlen := congrArg List.length hsplit'
      rw [List.length_drop, List.length_append] at hlen
      omega
    rw [forall_split_cons (Q := fun pre name =>
      H.ok (.field (k + (wireNames pre).length + 4 : Nat)) (name.length + 1) = true)]
    by_cases hok : H.ok (.field (k + 4 : Nat)) (name.length + 1) = true
    · rw [if_pos hok] at hstring
      simp only [List.length_cons, readElems, hstring, ne_eq, not_true, if_false, List.map_cons, List.cons.injEq,
        true_and]
      rw [ih hk' hnext]
      have hassoc : ∀ pre : List Bytes, k + (wireNames (name :: pre)).length + 4 =
          k + (wireString (some name)).length + (wireNames pre).length + 4 := fun pre => by
        rw [wireNames_cons, List.length_append]
        omega
      simp only [hassoc]
      exact ⟨fun h => ⟨hok, h⟩, fun h => h.2⟩
    · rw [if_neg hok] at hstring
      constructor
      · intro h
        simp [readElems, hstring] at h
      · exact fun h => absurd h.1 hok

/-- What decoding stores for a body that holds a list. -/
private theorem stringVector_at {payload : Bytes} {k : Nat} {n : Int32} {names : List Bytes} (v : StringVector)
    (hlt : payload.length < 2 ^ 31) (hk : k ≤ payload.length) (h : ListsChildren (payload.drop k) n names) :
    (deserializeStringVector H (archiveAt payload k) v).val.count = n ∧
      ((∀ (i : Nat) (name : Bytes), names[i]? = some name →
          (deserializeStringVector H (archiveAt payload k) v).val.data.bind (·[i]?) = some (some name)) ↔
        ListStored H (k + 4) n names) := by
  obtain ⟨hlen, rest, hsplit⟩ := h
  have hcount := reads_int n (.len "children") (fun n (v : StringVector) => { v with count := n }) payload k _ v hlt hk
    hsplit
  rw [length_be32] at hcount
  have hrest : payload.drop (k + 4) = wireNames names ++ rest := by
    rw [← List.drop_drop, hsplit, ← length_be32 n, List.drop_left]
  have hk4 : k + 4 ≤ payload.length := by
    have hlength := congrArg List.length hsplit
    rw [List.length_drop, List.length_append, length_be32] at hlength
    omega
  have hoff : (archiveAt payload (k + 4)).off = (k + 4 : Nat) := rfl
  have hnil : ¬ 0 < n.toInt → names = [] := fun hn => List.length_eq_zero_iff.1 (by omega)
  by_cases hok : H.ok (.field (k + 4 : Nat)) (n.toInt * 8) = true
  · obtain ⟨xs, hxs⟩ : ∃ xs, (readElems (iaDeserializeString H "value" fun x _ => x) none names.length 0
        (archiveAt payload (k + 4))).2.2.1 = xs := ⟨_, rfl⟩
    have hnames := readElems_names (H := H) hlt hk4 hrest
    have helems := length_readElems (iaDeserializeString H "value" fun x _ => x) none names.length 0
      (archiveAt payload (k + 4))
    rw [hxs] at hnames helems
    rw [hlen] at hxs
    have hval : (deserializeStringVector H (archiveAt payload k) v).val = ⟨n, some xs⟩ := by
      simp only [deserializeStringVector, deserializeVector, hcount, hoff, hok, if_true, hxs]
    rw [hval]
    refine ⟨rfl, ?_⟩
    have hentries : (∀ (i : Nat) (name : Bytes), names[i]? = some name → xs[i]? = some (some name)) ↔
        xs = names.map some := by
      constructor
      · intro h
        refine List.ext_getElem (by rw [helems, List.length_map]) fun i h₁ h₂ => ?_
        rw [List.length_map] at h₂
        have hi := h i names[i] (List.getElem?_eq_getElem h₂)
        rw [List.getElem?_eq_getElem h₁] at hi
        rw [Option.some.inj hi, List.getElem_map]
      · rintro rfl i name hi
        rw [List.getElem?_map, hi]
        rfl
    refine (hentries.trans hnames).trans ⟨fun h _ => ⟨hok, h⟩, fun h => ?_⟩
    by_cases hn : 0 < n.toInt
    · exact (h hn).2
    · rw [hnil hn]
      simp
  · have hval : (deserializeStringVector H (archiveAt payload k) v).val = ⟨n, none⟩ := by
      simp only [deserializeStringVector, deserializeVector, hcount, hoff, hok]
      rfl
    rw [hval]
    refine ⟨rfl, fun h hn => ?_, fun h i name hi => ?_⟩
    · have hpos : 0 < names.length := by omega
      have hbind := h 0 names[0] (List.getElem?_eq_getElem hpos)
      cases hbind
    · by_cases hn : 0 < n.toInt
      · exact absurd (h hn).1 hok
      · rw [hnil hn] at hi
        cases hi

/-- A list is decoded without an error, whatever the body. -/
private theorem run_finishGetChildren {σ : Type} (h : Handler σ) {header : ReplyHeader} {payload body : Bytes}
    (hlt : payload.length < 2 ^ 31) (hpay : payload = header.wire ++ body) (herr : header.err = 0) (s : σ) :
    ((finishGetChildren H (archiveAt payload 0)).run h s).1 =
      (zkOk, some (deserializeStringVector H (archiveAt payload 16) ⟨H.int, none⟩).val) := by
  have hrc : ∀ (ia : IArchive) (v : StringVector), (deserializeStringVector H ia v).rc = 0 := by
    intro ia v
    unfold deserializeStringVector deserializeVector
    dsimp only
    split <;> rfl
  have hd : ∀ ia : IArchive, (deserializeGetChildrenResponse H ia ⟨⟨H.int, none⟩⟩).rc = 0 ∧
      (deserializeGetChildrenResponse H ia ⟨⟨H.int, none⟩⟩).val.children =
        (deserializeStringVector H ia ⟨H.int, none⟩).val := by
    intro ia
    simp [deserializeGetChildrenResponse, readRecord, Reader.into, hrc]
  have hhead := Operation.run_decodeReplyHeader (H := H) (h := h) hlt hpay s
  rw [herr] at hhead
  simp [finishGetChildren, run_afterHeader, hhead, hd]
  split <;> rfl

/-- **Child lists.**  What `zk_get_children` returns and stores is right exactly when the body of the reply holds a
list and there is memory for it. -/
theorem zkGetChildren_complete_iff {σ : Type} {h : Handler σ} {s s₁ s₂ : σ} {path payload body : Bytes}
    {header : ReplyHeader} (hsent : ((Operation.getChildren path).send H).run h s = (zkOk, s₁))
    (hrecv : h .recvResponse s₁ = (some (archiveAt payload 0), s₂)) (hlt : payload.length < 2 ^ 31)
    (hpay : payload = header.wire ++ body) (herr : header.err = 0) :
    ListComplete body ((zkGetChildren H (some path)).run h s).1 ↔
      ∃ n names, ListsChildren body n names ∧ ListStored H 20 n names := by
  have hrun : ((zkGetChildren H (some path)).run h s).1 =
      (zkOk, some (deserializeStringVector H (archiveAt payload 16) ⟨H.int, none⟩).val) := by
    have hcourse : (zkGetChildren H (some path)).run h s = _ := @run_request _ σ H h getchildrenOpcode
      (serializeGetChildrenRequest H ⟨some path, 0⟩) lock (·, none) (finishGetChildren H) (run_lock h) s
    have hsent' : (encodeAndSend H getchildrenOpcode (serializeGetChildrenRequest H ⟨some path, 0⟩)).run h s =
      (zkOk, s₁) := hsent
    rw [hcourse, hsent']
    simp only [ne_eq, not_true, if_false, hrecv]
    exact run_finishGetChildren h hlt hpay herr s₂
  have hlen : header.wire.length = 16 := by simp [ReplyHeader.wire]
  have hdrop : payload.drop 16 = body := by rw [hpay, ← hlen, List.drop_left]
  have hk : 16 ≤ payload.length := by
    rw [hpay, List.length_append]
    omega
  have hvector : ∀ n names, ListsChildren body n names → _ := fun n names hlist =>
    stringVector_at (H := H) ⟨H.int, none⟩ hlt hk (show ListsChildren (payload.drop 16) n names by rwa [hdrop])
  rw [hrun]
  constructor
  · intro hcomplete
    obtain ⟨n, names, v, hlist, hv, -, hentries⟩ := hcomplete.listed rfl
    cases hv
    exact ⟨n, names, hlist, (hvector n names hlist).2.1 hentries⟩
  · rintro ⟨n, names, hlist, hstored⟩
    obtain ⟨hcount, hentries⟩ := hvector n names hlist
    exact ⟨fun _ => ⟨n, names, _, hlist, rfl, hcount, hentries.2 hstored⟩, fun hno => absurd hlist (hno n names)⟩

/-! ### A list, and a payload that is only a header -/

private def listHeader : ReplyHeader := ⟨1, 5, 0⟩

private def listBody : Bytes := be32 1 ++ (wireNames [[98]] ++ [])

private def listOp : Operation := .getChildren [47, 97]

private def listWorld (body : Bytes) : World :=
  { World.idle (initClient [] 10 3 0 0 0) with
    clock := [1], polls := [(1, 4), (1, 1)], writes := List.replicate 30 (.bytes 9)
    stream := frame (listHeader.wire ++ body), reads := List.replicate 30 (.bytes 9) }

private def listSent (body : Bytes) : World := (exec .plenty (listOp.send .plenty) (listWorld body)).2

private def listReceived (body : Bytes) : World := ((listSent body).recvResponse .plenty).2

private theorem list_sent {body : Bytes} (h : (exec .plenty (listOp.send .plenty) (listWorld body)).1 = zkOk) :
    exec .plenty (listOp.send .plenty) (listWorld body) = (zkOk, listSent body) := by
  rw [← h, listSent]

private theorem list_received {body : Bytes}
    (h : ((listSent body).recvResponse .plenty).1 = some (archiveAt (listHeader.wire ++ body) 0)) :
    (listSent body).recvResponse .plenty = (some (archiveAt (listHeader.wire ++ body) 0), listReceived body) := by
  rw [← h, listReceived]

/-- One child. -/
theorem zkGetChildren_complete_one :
    ListComplete listBody (exec .plenty (zkGetChildren .plenty (some [47, 97])) (listWorld listBody)).1 := by
  have hsent := @list_sent listBody (by decide +kernel)
  have hreceived := @list_received listBody (by decide +kernel)
  have hiff := zkGetChildren_complete_iff (h := World.handle .plenty) hsent hreceived (by decide) rfl rfl
  refine hiff.2 ⟨1, [[98]], ⟨rfl, [], rfl⟩, fun _ => ⟨rfl, fun pre name post _ => ?_⟩⟩
  exact Heap.plenty_succeeds _ _ (by omega)

/-- `zk_get_children` returns `ZK_OK` for a header without a list. -/
theorem zkGetChildren_accepts_header :
    ¬ ∀ (H : Heap) (path payload body : Bytes) (header : ReplyHeader) (w w₁ w₂ : World),
      exec H ((Operation.getChildren path).send H) w = (zkOk, w₁) →
      w₁.recvResponse H = (some (archiveAt payload 0), w₂) → payload.length < 2 ^ 31 →
      payload = header.wire ++ body → header.err = 0 →
      ListComplete body (exec H (zkGetChildren H (some path)) w).1 := by
  intro hall
  have hcomplete := hall .plenty [47, 97] _ [] listHeader (listWorld []) _ _ (list_sent (by decide +kernel))
    (list_received (by decide +kernel)) (by decide) rfl rfl
  have hstatus : (exec .plenty (zkGetChildren .plenty (some [47, 97])) (listWorld [])).1.1 = zkOk := by decide +kernel
  obtain ⟨n, names, v, ⟨-, rest, hbody⟩, -⟩ := hcomplete.listed hstatus
  have hlen := congrArg List.length hbody
  rw [List.length_append, length_be32, List.length_nil] at hlen
  omega

end ZkClient
