/-!
# Status values

The status values of `zkclient.h`, the `errno` values the code looks at, the texts of `zk_error` and the list of
errors on which `check_reconnect` asks for a new connection.  A status is an `Int`: the server's error field is
returned as it came, so any 32-bit value can occur.
-/

namespace ZkClient

/-! ### Client-side status values -/

@[simp] def zkOk : Int := 0
@[simp] def zkError : Int := -10000
@[simp] def zkTimeout : Int := -10001
@[simp] def zkSocketErr : Int := -10002

@[simp] def zkStateInit : Int := 0
@[simp] def zkStateConnected : Int := 1
@[simp] def zkStateAuthed : Int := 2
@[simp] def zkStateStop : Int := 3

/-! ### `enum ZK_ERRORS` -/

@[simp] def zSystemError : Int := -1
@[simp] def zRuntimeInconsistency : Int := -2
@[simp] def zDataInconsistency : Int := -3
@[simp] def zConnectionLoss : Int := -4
@[simp] def zMarshallingError : Int := -5
@[simp] def zUnimplemented : Int := -6
@[simp] def zOperationTimeout : Int := -7
@[simp] def zBadArguments : Int := -8
@[simp] def zInvalidState : Int := -9
@[simp] def zApiError : Int := -100
@[simp] def zNoNode : Int := -101
@[simp] def zNoAuth : Int := -102
@[simp] def zBadVersion : Int := -103
@[simp] def zNoChildrenForEphemerals : Int := -108
@[simp] def zNodeExists : Int := -110
@[simp] def zNotEmpty : Int := -111
@[simp] def zSessionExpired : Int := -112
@[simp] def zInvalidCallback : Int := -113
@[simp] def zInvalidAcl : Int := -114
@[simp] def zAuthFailed : Int := -115
@[simp] def zClosing : Int := -116
@[simp] def zNothing : Int := -117
@[simp] def zSessionMoved : Int := -118

/-! ### `errno` values -/

@[simp] def eintr : Int := 4
@[simp] def e2big : Int := 7
@[simp] def eagain : Int := 11
@[simp] def enomem : Int := 12
@[simp] def einval : Int := 22
@[simp] def einprogress : Int := 115

/-- The `switch` of `zk_error`. -/
def zkErrorTexts : List (Int × String) :=
  [(0, "null"),
   (zkSocketErr, "Zkclient socket error"),
   (zkError, "Inner error"),
   (zkTimeout, "Connection timeout"),
   (zSystemError, "System error"),
   (zRuntimeInconsistency, "A runtime inconsistency was found"),
   (zDataInconsistency, "A data inconsistency was found"),
   (zConnectionLoss, "Connection to the server has been lost"),
   (zMarshallingError, "Error while marshalling or unmarshalling data"),
   (zUnimplemented, "Operation is unimplemented"),
   (zOperationTimeout, "Operation timeout"),
   (zBadArguments, "Invalid arguments"),
   (zInvalidState, "Invliad client state"),
   (zApiError, "Api error"),
   (zNoNode, "Node does not exist"),
   (zNoAuth, "Not authenticated"),
   (zBadVersion, "Version conflict"),
   (zNoChildrenForEphemerals, "Ephemeral nodes may not have children"),
   (zNodeExists, "The node already exists"),
   (zNotEmpty, "The node has children"),
   (zSessionExpired, "The session has been expired by the server"),
   (zInvalidCallback, "Invalid callback specified"),
   (zInvalidAcl, "Invalid ACL specified"),
   (zAuthFailed, "Client authentication failed"),
   (zClosing, "ZooKeeper is closing"),
   (zNothing, "(not error) no server responses to process"),
   (zSessionMoved, "Session moved to another server, so operation is ignored")]

/-- `zk_error`, as a function of `c->last_err`. -/
def zkErrorText (lastErr : Int) : String := (zkErrorTexts.lookup lastErr).getD "unknown error"

/-- `check_reconnect`, as a function of `c->last_err`. -/
def checkReconnect (lastErr : Int) : Bool :=
  lastErr ∈ [zSystemError, zOperationTimeout, zInvalidState, zSessionExpired, zInvalidAcl, zClosing, zAuthFailed,
    zSessionMoved]

/-- Only `last_err == 0` is described as `null`. -/
theorem zkErrorText_ne_null {e : Int} (h : e ≠ 0) : zkErrorText e ≠ "null" := by
  have htail : ∀ row ∈ zkErrorTexts.tail, row.2 ≠ "null" := by decide
  have hlook : zkErrorTexts.lookup e = zkErrorTexts.tail.lookup e := by
    show List.lookup e ((0, "null") :: zkErrorTexts.tail) = _
    rw [List.lookup_cons, beq_false_of_ne h]
  unfold zkErrorText
  rw [hlook]
  cases hl : zkErrorTexts.tail.lookup e with
  | none => decide
  | some text =>
    obtain ⟨l₁, l₂, hsplit, -⟩ := List.lookup_eq_some_iff.1 hl
    exact htail (e, text) (by rw [hsplit]; simp)

end ZkClient
