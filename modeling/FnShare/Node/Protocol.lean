import FnShare.Invite

/-!
# The join and members protocols

`internal/node/protocol.go`. A prospective member sends its invite to a node of the group, which
checks it, records the peer, and answers with the group's descriptor and members (`handleJoin`,
`joinViaPeer`). Nodes tell each other the members that they know (`handleMembers`,
`syncGroupMembers`); a node takes over an entry only with a proof of admission.
-/

namespace FnShare

open Prog

variable (L : Libs)

/-- `writeJoinErr`. -/
def writeJoinErr (e : GoErr) : NodeM Unit := do
  let _ ← perform (.replyJoin { ok := false, error := e.text })

/-- `multiaddrsToStrings` of one address. -/
def multiaddrsToStrings (addr : Bytes) : List Bytes := if addr = [] then [] else [addr]

/-- The entry that `handleJoin` makes of a peer that it lets in. -/
def joinedMember (g : Group) (inv : Invite) (req : JoinRequest) (remotePeer remoteAddr : Bytes)
    (t : ℤ) (admitSig : Bytes) : Member :=
  { peerID := remotePeer
    nickname := req.nickname
    nodePub := req.nodePub
    encPub := req.encPub
    contributedB := req.contributed
    joinedAt := t
    admittedBySig := admitSig
    lastAddrs := multiaddrsToStrings remoteAddr
    admissionInvite := if g.isAdminNode then [] else L.cbor.invite.marshal inv }

/-- The answer of `handleJoin` to a peer that it lets in. -/
def joinedResponse (g : Group) (t : ℤ) (admitSig : Bytes) (members : List Member) : JoinResponse :=
  { ok := true
    groupID := g.id
    groupName := g.name
    groupAdmin := g.adminPub
    groupSharedKey := g.sharedKey
    admissionAt := if g.isAdminNode then unixNano t else 0
    admitSig := admitSig
    members := members }

/-- The signature of an admission: the admin's node signs, another has nothing to sign with. -/
def admission (g : Group) (remotePeer : Bytes) (t : ℤ) : Except GoErr Bytes :=
  if g.isAdminNode then admitMember L g remotePeer t else .ok []

/-- `handleJoin` from where the invite and the group are known. -/
def admitPeer (remotePeer remoteAddr : Bytes) (req : JoinRequest) (inv : Invite) (g : Group) :
    NodeM Unit := do
  let t ← now
  match admission L g remotePeer t with
  | .error e => writeJoinErr e
  | .ok sig =>
    match ← attempt (putMember L g.id (joinedMember L g inv req remotePeer remoteAddr t sig)) with
    | .error e => writeJoinErr (.wrap (lit "persist member: ") e)
    | .ok () =>
      let (members, _) ← listMembers L g.id
      match ← perform (.replyJoin (joinedResponse g t sig members)) with
      | .error _ => return ()
      | .ok () => slice12 g.id

/-- `handleJoin`, on the request that was read from the stream or the error of reading it. -/
def handleJoin (remotePeer remoteAddr : Bytes) (req : Except GoErr JoinRequest) : NodeM Unit := do
  match req with
  | .error e => writeJoinErr (.wrap (lit "decode request: ") e)
  | .ok req =>
    match req.invite with
    | none => writeJoinErr (.msg (lit "invite required"))
    | some inv =>
      match ← attempt (inv.verify L) with
      | .error e => writeJoinErr (.wrap (lit "invite invalid: ") e)
      | .ok () =>
        match ← attempt (loadByID L inv.groupID) with
        | .error _ => writeJoinErr (.msg (lit "we are not part of group " ++ inv.groupID))
        | .ok g => admitPeer L remotePeer remoteAddr req inv g

/-- Answer a members request. -/
def replyMembers (resp : MembersResponse) : NodeM Unit := do
  let _ ← perform (.replyMembers resp)

/-- `handleMembers`. -/
def handleMembers (req : Except GoErr MembersRequest) : NodeM Unit := do
  match req with
  | .error e => replyMembers { error := lit "decode: " ++ e.text }
  | .ok req =>
    if req.groupID = [] then replyMembers { error := lit "group_id required" }
    else
      match ← attempt (loadByID L req.groupID) with
      | .error _ =>
        slice12 req.groupID
        replyMembers { error := lit "we are not in group " ++ req.groupID.take 12 }
      | .ok _ =>
        match ← listMembers L req.groupID with
        | (_, some e) => replyMembers { error := e.text }
        | (members, none) => replyMembers { groupID := req.groupID, members := members }

/-- `FetchMembersFrom`. -/
def fetchMembersFrom (target groupID : Bytes) : NodeM (List Member) := do
  let resp ← ofExcept (← perform (.sendMembers target ⟨groupID⟩))
  if resp.error ≠ [] then fail (.msg resp.error) else return resp.members

/-- The body of the innermost loop of `SyncGroupMembers`: one entry that a peer offers. The state is
the set of peers known in the group and the number of entries taken over. -/
def syncMember (self : Bytes) (g : Group) (st : List Bytes × ℕ) (m : Member) :
    NodeM (List Bytes × ℕ) := do
  if m.peerID ∈ st.1 ∨ m.peerID = self then return st
  else if !(← orPanic (verifyMembership L g m)) then
    slice12 g.id
    return st
  else
    match ← attempt (putMember L g.id m) with
    | .error _ =>
      slice12 g.id
      return st
    | .ok () =>
      slice12 g.id
      return (m.peerID :: st.1, st.2 + 1)

/-- The body of the loop of `SyncGroupMembers` over the connected peers. -/
def syncPeer (self : Bytes) (g : Group) (st : List Bytes × ℕ) (pid : Bytes) :
    NodeM (List Bytes × ℕ) := do
  match ← attempt (fetchMembersFrom pid g.id) with
  | .error _ => return st
  | .ok members => members.foldlM (syncMember L self g) st

/-- The body of the loop of `SyncGroupMembers` over the groups of the node. -/
def syncGroup (self : Bytes) (connected : List Bytes) (g : Group) : NodeM Unit := do
  let (existing, err) ← listMembers L g.id
  let known := if err.isNone then existing.map Member.peerID else []
  let (_, added) ← connected.foldlM (syncPeer L self g) (known, 0)
  if 0 < added then slice12 g.id

/-- `SyncGroupMembers`. -/
def syncGroupMembers (self : Bytes) : NodeM Unit := do
  match ← listGroups L with
  | (_, some _) => return ()
  | (groups, none) =>
    let connected ← perform .connected
    if connected = [] then return ()
    else groups.foldlM (fun _ g => syncGroup L self connected g) ()

/-- What a node tells of itself in a join request. -/
structure JoinIdentity where
  nickname : Bytes
  contributed : ℤ
  nodePub : Bytes
  encPub : Bytes

/-- The body of the loop of `JoinViaPeer` over the members of the response. -/
def installMember (gid : Bytes) (m : Member) : NodeM Unit := do
  match ← attempt (putMember L gid m) with
  | .error _ => return ()
  | .ok () => return ()

/-- `JoinViaPeer`. -/
def joinViaPeer (me : JoinIdentity) (target : Bytes) (inv : Invite) : NodeM JoinResponse := do
  let req : JoinRequest :=
    { invite := some inv, nickname := me.nickname, contributed := me.contributed,
      nodePub := me.nodePub, encPub := me.encPub }
  let resp ← match ← perform (.sendJoin target req) with
    -- A stream closed without a response decodes as the zero response.
    | .error .eof => ret { ok := false }
    | .error e => fail e
    | .ok resp => ret resp
  if !resp.ok then fail (.msg (lit "remote refused: " ++ resp.error))
  else
    let invKey := sliceBytes inv.groupSharedKey
    let g : Group :=
      { id := resp.groupID, name := resp.groupName, adminPub := resp.groupAdmin,
        sharedKey := if invKey.length = 0 then resp.groupSharedKey else invKey,
        isAdminNode := false }
    mapErr (.wrap (lit "persist group: ")) (saveGroup L g)
    resp.members.foldlM (fun _ m => installMember L g.id m) ()
    return resp

end FnShare
