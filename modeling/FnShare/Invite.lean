import FnShare.Group
import FnShare.Lib.Interleave

/-!
# Invites

The package `internal/invite`: a self-contained credential that the admin of a group signs and
that a prospective member presents to any node of the group. `Verify` checks the signature against
the key that the invite itself carries.
-/

namespace FnShare

open Prog

variable (L : Libs)

/-- `signedBytes`: the encoding of the signed fields. -/
def Invite.signedBytes (i : Invite) : Bytes := L.cbor.marshalPayload i.toPayload

/-- The signature check of `Verify`, against the key in the invite. -/
def Invite.selfSigned (i : Invite) : Bool :=
  L.ed25519.verify (sliceBytes i.groupAdminPub) (i.signedBytes L) (sliceBytes i.signature)

/-- `Verify`. -/
def Invite.verify (i : Invite) : NodeM Unit := do
  if (sliceBytes i.groupAdminPub).length ≠ publicKeySize then
    fail (.msg (lit "invite: admin pubkey wrong size"))
  else
    let t ← now
    if unix t > i.expiresAt then fail (.msg (lit "invite: expired"))
    else if !i.selfSigned L then fail (.msg (lit "invite: bad signature"))
    else return ()

/-- `Create`: a fresh invite, signed with the admin's key. `ttl` is in nanoseconds. -/
def createInvite (g : Group) (bootstrap : Option (List Bytes)) (ttl quotaCap : ℤ) :
    NodeM Invite := do
  if g.adminPriv.length ≠ privateKeySize then
    fail (.msg (lit "only the admin node can create invites"))
  else
    let nonce ← randRead 16
    let t ← now
    let p : Payload :=
      { groupID := g.id, groupName := g.name, groupAdminPub := some g.adminPub,
        groupSharedKey := some g.sharedKey, bootstrapPeers := bootstrap, nonce := some nonce.1,
        issuedAt := unix t, expiresAt := unix (t + ttl), quotaCap := quotaCap }
    return { p with signature := some (L.ed25519.sign g.adminPriv (L.cbor.marshalPayload p)) }

variable {L}

/-- What `Create` makes. -/
theorem createInvite_eq {g : Group} {bootstrap : Option (List Bytes)} {ttl quotaCap : ℤ}
    {evs : List NodeEvent} {inv : Invite}
    (h : Steps (Env.any NodeSig) () (createInvite L g bootstrap ttl quotaCap) evs () (ret inv)) :
    g.adminPriv.length = privateKeySize ∧ inv.groupID = g.id ∧ inv.groupName = g.name ∧
      inv.bootstrapPeers = bootstrap ∧ inv.groupAdminPub = some g.adminPub ∧
      inv.signature = some (L.ed25519.sign g.adminPriv (inv.signedBytes L)) := by
  unfold createInvite at h
  split_ifs at h with hlen
  · cases h
  · cases h with
    | @op _ _ _ _ nonce _ _ _ _ hrest =>
      cases nonce with
      | error e => cases hrest
      | ok nonce =>
        cases hrest with
        | op _ hrest =>
          cases hrest
          exact ⟨not_not.mp hlen, rfl, rfl, rfl, rfl, rfl⟩

end FnShare
