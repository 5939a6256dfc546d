import FnShare.Node.Sync

/-!
# The nodes of a network agree on their groups

Nodes found groups, let each other in, join and exchange their member tables, all at the same time and with
any message lost. The join protocol is asynchronous: a handler runs by itself and leaves its answer
(`Overlay.answers`), and whoever asked may take it later or never. `handleMembers` only reads, and its answer
is what its last read finds, so that it is one step of the caller.

Nothing in the protocols compares the records of two nodes. A record is copied from node to node, its shared
key is taken from an invite, and the tables are filled from three sides. If all nodes run this code, they
agree all the same: two records of a group are the same but for the admin's private key, which only the
founder has (`groups_agree`), and whoever is in a table has asked to be let in with an invite, or has founded
the group (`members_joined`).
-/

namespace FnShare

open Prog

/-! ## Nodes and their messages -/

/-- What the nodes have on their disks, and the answers to join requests that were sent. -/
structure Overlay where
  node : Bytes → NodeState
  /-- Who has answered, who has asked, the request and the answer. -/
  answers : List (Bytes × Bytes × JoinRequest × JoinResponse)

namespace Overlay

/-- No node has anything yet. -/
def fresh : Overlay := ⟨fun _ => .fresh, []⟩

/-- The state after a change at one node. -/
def set (w : Overlay) (n : Bytes) (s : NodeState) : Overlay := { w with node := Function.update w.node n s }

/-- The state after a node has answered a join request. -/
def answer (w : Overlay) (n q : Bytes) (req : JoinRequest) (resp : JoinResponse) : Overlay :=
  { w with answers := (n, q, req, resp) :: w.answers }

/-- The node that is set. -/
@[simp] theorem node_set_self (w : Overlay) (n : Bytes) (s : NodeState) : (w.set n s).node n = s :=
  Function.update_self ..

/-- The other nodes stay. -/
theorem node_set_ne (w : Overlay) {n k : Bytes} (s : NodeState) (h : k ≠ n) : (w.set n s).node k = w.node k :=
  Function.update_of_ne h ..

/-- The answers stay. -/
@[simp] theorem answers_set (w : Overlay) (n : Bytes) (s : NodeState) : (w.set n s).answers = w.answers := rfl

/-- Setting a node to what it is. -/
@[simp] theorem set_node (w : Overlay) (n : Bytes) : w.set n (w.node n) = w := by
  simp [set]

end Overlay

/-- A node that has `s` on its disk can answer a members request so. -/
def MembersServed (L : Libs) (s : NodeState) (req : MembersRequest) (resp : MembersResponse) : Prop :=
  ∃ evs t, Steps nodeEnv s (handleMembers L (.ok req)) evs t (ret ()) ∧
    (⟨.replyMembers resp, .ok ()⟩ : NodeEvent) ∈ evs

/-- What a program is for. -/
inductive Role
  /-- It serves a join request of a peer. -/
  | serves (q : Bytes) (req : JoinRequest)
  | joins
  | syncs
  | founds

/-- A program runs at a node. -/
abbrev Place := Bytes × Role

/-- What an operation of a program can do and answer. -/
def Overlay.exec (L : Libs) (l : Place) (w : Overlay) : (o : NodeOp) → o.Ans → Overlay → Prop
  | .sendJoin pid req, r, w' =>
    w' = w ∧ ((∃ e, r = .error e) ∨ ∃ resp, (pid, l.1, req, resp) ∈ w.answers ∧ r = .ok resp)
  | .sendMembers pid req, r, w' =>
    w' = w ∧ ((∃ e, r = .error e) ∨ ∃ resp, MembersServed L (w.node pid) req resp ∧ r = .ok resp)
  | .replyJoin resp, _, w' =>
    -- An answer can arrive although its sender sees an error, and get lost although it sees none.
    w' = w ∨ ∃ q req, l.2 = .serves q req ∧ w' = w.answer l.1 q req resp
  | o, r, w' => ∃ s', (w.node l.1).step o r s' ∧ w' = w.set l.1 s'

/-! ## Groups as they were founded -/

/-- What is decided once for a group, when it is created. -/
structure Founding where
  name : Bytes
  sharedKey : Bytes
  /-- The node that creates it. -/
  founder : Bytes

section Founded

variable (L : Libs) (foundings : Bytes → Founding) (Good : Bytes → Member → Prop)

/-- A group is described as it was founded. -/
structure Founded (gid name adminPub sharedKey : Bytes) : Prop where
  length_pub : adminPub.length = publicKeySize
  id_eq : gid = hexEncode adminPub
  name_eq : name = (foundings gid).name
  key_eq : sharedKey = (foundings gid).sharedKey

/-- The record of a group at a node is as it was founded, and the admin's is at the founder. -/
structure Rightful (n : Bytes) (g : Group) : Prop where
  founded : Founded foundings g.id g.name g.adminPub g.sharedKey
  admin : g.isAdminNode = true ∨ g.adminPriv ≠ [] → n = (foundings g.id).founder

/-- The answer to a join request describes the group of the invite, and lists good entries. -/
structure Truthful (req : JoinRequest) (resp : JoinResponse) : Prop where
  invited : ∃ inv, req.invite = some inv ∧ inv.groupID = resp.groupID
  founded : Founded foundings resp.groupID resp.groupName resp.groupAdmin resp.groupSharedKey
  members : ∀ m ∈ resp.members, Good resp.groupID m

/-- No two groups are created with one id: what is stored of a group by its founder is what was decided for
it. Entries of the founder are good. -/
def Founds (n : Bytes) : NodeOp → Prop
  | .storePut key value => lit "group/" <+: key → ∀ g, value = L.cbor.group.marshal g → g.isAdminNode = true →
      foundings g.id = ⟨g.name, g.sharedKey, n⟩ ∧ ∀ m : Member, m.peerID = n → Good g.id m
  | _ => True

/-- The shared key in an invite, if there is one, is that of the group. -/
def Invite.Genuine (inv : Invite) : Prop :=
  (sliceBytes inv.groupSharedKey).length = 0 ∨
    sliceBytes inv.groupSharedKey = (foundings inv.groupID).sharedKey

/-- The programs of a node that handle groups. Entries of a peer that asks to be let in, with an invite that
has a signature, are good. -/
inductive OverlayTask : Place → NodeM Unit → Prop
  | join (n q addr : Bytes) {req : JoinRequest}
      (h : ∀ inv, req.invite = some inv → inv.selfSigned L = true → ∀ m : Member, m.peerID = q →
        Good inv.groupID m) :
      OverlayTask (n, .serves q req) (handleJoin L q addr (.ok req))
  | joining (n target : Bytes) (me : JoinIdentity) {inv : Invite} (h : inv.Genuine foundings) :
      OverlayTask (n, .joins) (joinViaPeer L me target inv >>= fun _ => ret ())
  | sync (n : Bytes) : OverlayTask (n, .syncs) (syncGroupMembers L n)
  | create (n name : Bytes) (me : JoinIdentity) :
      OverlayTask (n, .founds) (handleCreateGroup L me n name >>= fun _ => ret ())

/-- The nodes, their programs, and other records that they store. -/
def overlay : System NodeSig Overlay Place GoErr Unit where
  exec l w o r w' := Founds L foundings Good l.1 o ∧ w.exec L l o r w'
  start l p := OverlayTask L foundings Good l p
  drift w w' := ∃ n key raw, ¬ lit "group/" <+: key ∧ ¬ lit "member/" <+: key ∧
    w' = w.set n ((w.node n).putKey key raw)

/-- The nodes agree: records are as they were founded and under their ids, entries are good and under the ids
of a group and of their peer, and answers to join requests are truthful. -/
structure Accord (w : Overlay) : Prop where
  group : ∀ n key raw g, lit "group/" <+: key → (w.node n).store.get key = some raw →
    L.cbor.group.unmarshal raw = .ok g → key = groupKey g.id ∧ Rightful foundings n g
  member : ∀ n key raw m, lit "member/" <+: key → (w.node n).store.get key = some raw →
    L.cbor.member.unmarshal raw = .ok m →
    ∃ gid, gid.length = 2 * publicKeySize ∧ key = memberKey gid m.peerID ∧ Good gid m
  answered : ∀ n q req resp, (n, q, req, resp) ∈ w.answers → resp.ok = true → Truthful foundings Good req resp

/-- A record that is stored is one of a group, as it was founded unless its founder stores it, or a good
entry. -/
def Storing : NodeOp → Prop
  | .storePut key value =>
    (∃ g : Group, key = groupKey g.id ∧ value = L.cbor.group.marshal g ∧ g.adminPub.length = publicKeySize ∧
      g.id = hexEncode g.adminPub ∧ (g.isAdminNode = false → g.adminPriv = [] ∧
        Founded foundings g.id g.name g.adminPub g.sharedKey)) ∨
    ∃ gid m, gid.length = 2 * publicKeySize ∧ key = memberKey gid m.peerID ∧ value = L.cbor.member.marshal m ∧
      Good gid m
  | _ => True

/-- An operation that keeps the nodes agreed. -/
structure Agreeable (l : Place) (o : NodeOp) : Prop where
  storing : Storing L foundings Good o
  replying : ∀ q req resp, l.2 = .serves q req → o = .replyJoin resp → resp.ok = true →
    Truthful foundings Good req resp

end Founded

/-! ## What a step can do -/

section Steps

variable {L : Libs} {l : Place} {w w' : Overlay} {o : NodeOp} {r : o.Ans}
variable {s : NodeState}

/-- A step changes nothing that matters here, or stores a record, or answers a join request. -/
theorem Overlay.exec_cases (h : w.exec L l o r w') :
    (w'.answers = w.answers ∧ ∀ n, (w'.node n).store = (w.node n).store) ∨
    (∃ key value, o = .storePut key value ∧ w' = w.set l.1 ((w.node l.1).putKey key value)) ∨
    ∃ q req resp, l.2 = .serves q req ∧ o = .replyJoin resp ∧ w' = w.answer l.1 q req resp := by
  have hlocal : (∃ s', (w.node l.1).step o r s' ∧ w' = w.set l.1 s') →
      (w'.answers = w.answers ∧ ∀ n, (w'.node n).store = (w.node n).store) ∨
      ∃ key value, o = .storePut key value ∧ w' = w.set l.1 ((w.node l.1).putKey key value) := by
    rintro ⟨s', hs, rfl⟩
    have hframe : s'.store = (w.node l.1).store → (w.set l.1 s').answers = w.answers ∧
        ∀ n, ((w.set l.1 s').node n).store = (w.node n).store := by
      intro hstore
      refine ⟨rfl, fun n => ?_⟩
      by_cases hn : n = l.1
      · rw [hn, Overlay.node_set_self, hstore]
      · rw [Overlay.node_set_ne w s' hn]
    rcases NodeState.step_cases hs with rfl | ⟨key, value, he, rfl⟩ | ⟨_, _, -, -, rfl⟩ |
      ⟨_, _, -, rfl⟩ | ⟨_, -, rfl⟩
    · exact .inl (hframe rfl)
    · exact .inr ⟨key, value, congrArg Event.op he, rfl⟩
    · exact .inl (hframe rfl)
    · exact .inl (hframe rfl)
    · exact .inl (hframe rfl)
  cases o with
  | sendJoin pid req => exact .inl (h.1 ▸ ⟨rfl, fun _ => rfl⟩)
  | sendMembers pid req => exact .inl (h.1 ▸ ⟨rfl, fun _ => rfl⟩)
  | replyJoin resp =>
    rcases h with rfl | ⟨q, req, hl, rfl⟩
    · exact .inl ⟨rfl, fun _ => rfl⟩
    · exact .inr (.inr ⟨q, req, resp, hl, rfl, rfl⟩)
  | _ => exact (hlocal h).imp_right .inl

/-- The pairs of an iteration are stored. -/
theorem NodeState.mem_of_iterate {s' : NodeState} {pre key raw : Bytes}
    {res : List (Bytes × Bytes) × Option GoErr} (hs : s.step (.storeIterate pre) res s')
    (hmem : (key, raw) ∈ res.1) : s.store.get key = some raw ∧ pre <+: key := by
  rcases hs with ⟨-, rfl | ⟨pairs, e, hpairs, rfl⟩⟩
  · exact NodeState.mem_scan.mp hmem
  · exact NodeState.mem_scan.mp (hpairs.subset hmem)

/-- A group that can be loaded is listed. -/
theorem NodeState.mem_groups {gid : Bytes} {g : Group} (h : s.group L gid = some g) :
    g ∈ s.groups L := by
  obtain ⟨raw, hget, hdec⟩ := NodeState.group_eq_some.mp h
  exact mem_decodeValues.mpr ⟨(groupKey gid, raw), NodeState.mem_scan.mpr
    ⟨hget, List.prefix_append _ _⟩, hdec⟩

/-- What `handleMembers` answers is in the table of a group that the node has. -/
theorem MembersServed.sound {req : MembersRequest} {resp : MembersResponse}
    (h : MembersServed L s req resp) :
    resp.members = [] ∨ (∃ g, s.group L req.groupID = some g) ∧ resp.members = s.members L req.groupID := by
  obtain ⟨evs, t, hsteps, hmem⟩ := h
  let Sound (resp : MembersResponse) : Prop :=
    resp.members = [] ∨ (∃ g, s.group L req.groupID = some g) ∧ resp.members = s.members L req.groupID
  let guard (_ : NodeState) (_ : List NodeEvent) (o : NodeOp) : Prop :=
    ∀ resp, o = .replyMembers resp → Sound resp
  suffices hwp : wp (nodeEnv.traced guard) (handleMembers L (.ok req)) (fun _ _ => True) (s, []) by
    obtain ⟨v, l, hg⟩ := wp_traced_mem hwp hsteps hmem
    exact hg resp rfl
  have hreply : ∀ resp evs, Sound resp → wp (nodeEnv.traced guard) (replyMembers resp)
      (fun _ _ => True) (s, evs) := by
    intro resp evs hresp
    refine wp_traced_op.mpr ⟨?_, fun _ _ _ => trivial⟩
    rintro _ ⟨rfl⟩
    exact hresp
  unfold handleMembers
  simp only
  split_ifs
  · exact hreply _ _ (.inl rfl)
  rw [wp_bind, wp_attempt]
  refine wp_loadByID (by simp [guard]) (fun e evs => ?_) fun g r hg => ?_
  · rw [andThen_ok]
    by_cases hlong : 12 ≤ req.groupID.length
    · rw [slice12_of_le hlong, ret_bind]
      exact hreply _ _ (.inl rfl)
    · rw [slice12, if_neg hlong]
      exact wp_traced_op.mpr ⟨by simp [guard], fun r => Empty.elim r⟩
  · rw [andThen_ok]
    refine wp_traced_op.mpr ⟨by simp [guard], ?_⟩
    rintro ⟨pairs, err⟩ s' hs
    obtain rfl : s' = s := hs.1
    cases err with
    | some e => exact hreply _ _ (.inl rfl)
    | none => exact hreply _ _ (.inr ⟨⟨g, hg⟩, by rw [NodeState.scan_of_step hs]; rfl⟩)

end Steps

/-! ## The steps keep the agreement -/

section Agreement

variable {L : Libs} {foundings : Bytes → Founding} {Good : Bytes → Member → Prop} {l : Place} {w w' : Overlay}
variable {n key gid self : Bytes} {o : NodeOp} {m : Member} {g : Group} {inv : Invite}

/-- Fresh nodes agree. -/
theorem accord_fresh : Accord L foundings Good .fresh where
  group _ key _ _ _ hget _ := absurd (hget.symm.trans (SortedMap.get_empty key)) (by simp)
  member _ key _ _ _ hget _ := absurd (hget.symm.trans (SortedMap.get_empty key)) (by simp)
  answered _ _ _ _ hmem := absurd hmem (by simp [Overlay.fresh])

/-- The agreement is about what is stored and answered. -/
theorem Accord.congr (h : Accord L foundings Good w) (hanswers : w'.answers = w.answers)
    (hstore : ∀ n, (w'.node n).store = (w.node n).store) : Accord L foundings Good w' where
  group n key raw g hpre hget := h.group n key raw g hpre (by rwa [← hstore])
  member n key raw m hpre hget := h.member n key raw m hpre (by rwa [← hstore])
  answered n q req resp hmem := h.answered n q req resp (by rwa [← hanswers])

/-- The value of a key after a node has stored something. -/
theorem Overlay.get_set_putKey {k key' raw value : Bytes}
    (hget : ((w.set n ((w.node n).putKey key value)).node k).store.get key' = some raw) :
    (w.node k).store.get key' = some raw ∨ k = n ∧ key' = key ∧ raw = value := by
  by_cases hk : k = n
  · subst hk
    rw [Overlay.node_set_self] at hget
    by_cases hkey : key' = key
    · subst hkey
      exact .inr ⟨rfl, rfl, Option.some.inj (hget.symm.trans (SortedMap.get_put_self _ _ _))⟩
    · exact .inl ((SortedMap.get_put_ne _ hkey _).symm.trans hget)
  · rw [Overlay.node_set_ne w _ hk] at hget
    exact .inl hget

/-- A record that a node stores keeps the agreement. What is good has to be so with its time cut. -/
theorem Accord.put (hC : L.cbor.Lawful) (hnorm : ∀ gid m, Good gid m → Good gid m.norm)
    (h : Accord L foundings Good w) {value : Bytes}
    (hfounds : Founds L foundings Good n (.storePut key value))
    (hput : Storing L foundings Good (.storePut key value)) :
    Accord L foundings Good (w.set n ((w.node n).putKey key value)) where
  group k key' raw g hpre hget hdec := by
    rcases Overlay.get_set_putKey hget with hget | ⟨rfl, rfl, rfl⟩
    · exact h.group k key' raw g hpre hget hdec
    rcases hput with ⟨g', rfl, rfl, hpub, hid, hrest⟩ | ⟨gid, m, -, rfl, -, -⟩
    · rw [hC.group.eq_norm hdec]
      refine ⟨rfl, ?_⟩
      cases hadmin : g'.isAdminNode with
      | true =>
        obtain ⟨hfounding, -⟩ := hfounds hpre g' rfl hadmin
        refine ⟨⟨hpub, hid, ?_, ?_⟩, fun _ => ?_⟩ <;> simp only [Group.norm, hfounding]
      | false =>
        obtain ⟨hpriv, hfounded⟩ := hrest hadmin
        refine ⟨hfounded, fun hpower => ?_⟩
        simp [Group.norm, hadmin, hpriv] at hpower
    · exact absurd hpre (not_prefix_memberKey _ _)
  member k key' raw m hpre hget hdec := by
    rcases Overlay.get_set_putKey hget with hget | ⟨rfl, rfl, rfl⟩
    · exact h.member k key' raw m hpre hget hdec
    rcases hput with ⟨g', rfl, -⟩ | ⟨gid, m', hlen, rfl, rfl, hgood⟩
    · exact absurd hpre (not_member_groupKey _)
    · rw [hC.member.eq_norm hdec]
      exact ⟨gid, hlen, rfl, hnorm gid m' hgood⟩
  answered := h.answered

/-- An agreeable operation keeps the agreement. -/
theorem Agreeable.keeps (hC : L.cbor.Lawful) (hnorm : ∀ gid m, Good gid m → Good gid m.norm) {r : o.Ans}
    (ho : Agreeable L foundings Good l o) (h : Accord L foundings Good w)
    (hs : (overlay L foundings Good).exec l w o r w') : Accord L foundings Good w' := by
  obtain ⟨hfounds, hexec⟩ := hs
  rcases Overlay.exec_cases hexec with ⟨hanswers, hstore⟩ | ⟨key, value, rfl, rfl⟩ |
    ⟨q, req, resp, hl, rfl, rfl⟩
  · exact h.congr hanswers hstore
  · exact h.put hC hnorm hfounds ho.storing
  · refine ⟨h.group, h.member, fun n q' req' resp' hmem hok => ?_⟩
    rcases List.mem_cons.mp hmem with heq | hmem
    · cases heq
      exact ho.replying q req resp hl rfl hok
    · exact h.answered n q' req' resp' hmem hok

/-- The key of an entry in the table of a group is that of the group. -/
theorem eq_of_prefix_memberKey {gid' pid : Bytes} (hlen : gid.length = gid'.length)
    (h : memberPrefix gid <+: memberKey gid' pid) : gid = gid' := by
  unfold memberKey memberPrefix at h
  rw [List.append_assoc, List.append_assoc, List.append_assoc, List.prefix_append_right_inj] at h
  obtain ⟨t, ht⟩ := h
  rw [List.append_assoc] at ht
  exact (List.append_inj ht hlen).1

/-- The keys of all tables begin alike. -/
theorem prefix_of_memberPrefix (h : memberPrefix gid <+: key) : lit "member/" <+: key := by
  refine List.IsPrefix.trans ?_ h
  rw [memberPrefix, List.append_assoc]
  exact List.prefix_append _ _

/-- The entries that are stored of a group are good, and under its id. -/
theorem Accord.entry (h : Accord L foundings Good w) {raw : Bytes} (hlen : gid.length = 2 * publicKeySize)
    (hget : (w.node n).store.get key = some raw) (hpre : memberPrefix gid <+: key)
    (hdec : L.cbor.member.unmarshal raw = .ok m) : key = memberKey gid m.peerID ∧ Good gid m := by
  obtain ⟨gid', hlen', rfl, hgood⟩ := h.member n key raw m (prefix_of_memberPrefix hpre) hget hdec
  obtain rfl := eq_of_prefix_memberKey (hlen.trans hlen'.symm) hpre
  exact ⟨rfl, hgood⟩

/-- Every member of a table is good. -/
theorem Accord.good (h : Accord L foundings Good w) (hlen : gid.length = 2 * publicKeySize)
    (hm : m ∈ (w.node n).members L gid) : Good gid m := by
  obtain ⟨key, raw, hget, hpre, hdec⟩ := (NodeState.mem_members_iff _ _ _).mp hm
  exact (h.entry hlen hget hpre hdec).2

/-- A group that a node lists is recorded. -/
theorem Accord.recorded (h : Accord L foundings Good w) (hg : g ∈ (w.node n).groups L) :
    Rightful foundings n g := by
  obtain ⟨⟨key, raw⟩, hscan, hdec⟩ := mem_decodeValues.mp hg
  obtain ⟨hget, hpre⟩ := NodeState.mem_scan.mp hscan
  exact (h.group n key raw g hpre hget hdec).2

/-- The id of a founded group has the length of a key. -/
theorem Founded.length_id {name adminPub sharedKey : Bytes}
    (h : Founded foundings gid name adminPub sharedKey) : gid.length = 2 * publicKeySize := by
  rw [h.id_eq, length_hexEncode, h.length_pub]

/-- What a peer answers to a members request are good entries. -/
theorem Accord.served (h : Accord L foundings Good w) {pid : Bytes} (hlen : gid.length = 2 * publicKeySize)
    {resp : MembersResponse} (hserved : MembersServed L (w.node pid) ⟨gid⟩ resp) :
    ∀ m ∈ resp.members, Good gid m := by
  intro m hm
  rcases hserved.sound with hnil | ⟨-, heq⟩
  · rw [hnil] at hm
    exact absurd hm (by simp)
  · rw [heq] at hm
    exact h.good hlen hm

/-! ## The programs keep the agreement -/

variable (L foundings Good l) in
/-- The environment of a program: the nodes agree, and it has to keep them so. -/
abbrev agreedEnv : Env NodeSig Overlay :=
  (overlay L foundings Good).inside (Accord L foundings Good) (Storing L foundings Good) l

/-- An operation that neither stores a record nor answers a join request. -/
def Inert : NodeOp → Prop
  | .storePut _ _ | .replyJoin _ => False
  | _ => True

/-- What stores nothing is agreeable. -/
theorem Inert.agreeable (ho : Inert o) : Agreeable L foundings Good l o := by
  constructor
  · cases o with
    | storePut key value => exact ho.elim
    | _ => trivial
  · rintro q req resp - rfl
    exact ho.elim

variable (hC : L.cbor.Lawful) (hnorm : ∀ gid m, Good gid m → Good gid m.norm)

include hC hnorm

/-- Agreeable operations are allowed. -/
theorem Agreeable.guard (ho : Agreeable L foundings Good l o) (w : Overlay) :
    (agreedEnv L foundings Good l).guard w o :=
  ⟨ho.storing, fun _ _ _ h hs => ho.keeps hC hnorm h hs⟩

/-- So are those that store nothing. -/
theorem Inert.guard (ho : Inert o) (w : Overlay) : (agreedEnv L foundings Good l).guard w o :=
  ho.agreeable.guard hC hnorm w

/-- A program that is agreeable whatever it is answered. -/
theorem wp_of_agreeable {α : Type} {p : NodeM α} (hp : p.Only (Agreeable L foundings Good l)) (w : Overlay) :
    wp (agreedEnv L foundings Good l) p (fun _ _ => True) w :=
  hp.wp_keeps (fun w _ _ ho => ho.guard hC hnorm w) (fun _ _ _ _ _ _ _ => trivial) trivial

/-- A group that is loaded is as it was founded. -/
theorem wp_loadByID_recorded (gid : Bytes) (w : Overlay) :
    wp (agreedEnv L foundings Good l) (loadByID L gid) (onOk fun g _ => g.id = gid ∧
      Rightful foundings l.1 g) w := by
  unfold loadByID storeGet
  rw [wp_bind, wp_attempt]
  refine ⟨Inert.guard hC hnorm (o := .storeGet (groupKey gid)) trivial w, ?_⟩
  rintro r w' ⟨v, hI, -, s', hs, -⟩
  cases r with
  | error e =>
    simp only [bind_eq, ret_bind, ofExcept_error, wp_fail, andThen_ok]
    split_ifs <;> trivial
  | ok raw =>
    simp only [bind_eq, ret_bind, ofExcept_ok, wp_ret, andThen_ok, wp_ofExcept]
    have hget := NodeState.get_of_step hs
    cases hdec : L.cbor.group.unmarshal raw with
    | error e => trivial
    | ok g =>
      obtain ⟨hkey, hrec⟩ := hI.group l.1 _ raw g (List.prefix_append _ _) hget hdec
      exact ⟨(groupKey_inj hkey).symm, hrec⟩

/-- The groups that are listed are as they were founded. -/
theorem wp_listGroups_recorded (w : Overlay) :
    wp (agreedEnv L foundings Good l) (listGroups L)
      (returns fun res _ => ∀ g ∈ res.1, Rightful foundings l.1 g) w := by
  refine ⟨Inert.guard hC hnorm (o := .storeIterate (lit "group/")) trivial w, ?_⟩
  rintro r w' ⟨v, hI, -, s', hs, -⟩ g hg
  obtain ⟨⟨key, raw⟩, hmem, hdec⟩ := mem_decodeValues.mp hg
  obtain ⟨hget, hpre⟩ := NodeState.mem_of_iterate hs hmem
  exact (hI.group l.1 key raw g hpre hget hdec).2

/-- The entries that are listed are good. -/
theorem wp_listMembers_good (hlen : gid.length = 2 * publicKeySize) (w : Overlay) :
    wp (agreedEnv L foundings Good l) (listMembers L gid)
      (returns fun res _ => ∀ m ∈ res.1, Good gid m) w := by
  refine ⟨Inert.guard hC hnorm (o := .storeIterate (memberPrefix gid)) trivial w, ?_⟩
  rintro r w' ⟨v, hI, -, s', hs, -⟩ m hm
  obtain ⟨⟨key, raw⟩, hmem, hdec⟩ := mem_decodeValues.mp hm
  obtain ⟨hget, hpre⟩ := NodeState.mem_of_iterate hs hmem
  exact (hI.entry hlen hget hpre hdec).2

omit hC hnorm

/-- Storing a good member. -/
theorem agreeable_putMember (hlen : gid.length = 2 * publicKeySize) (hgood : Good gid m) :
    (putMember L gid m).Only (Agreeable L foundings Good l) :=
  ⟨⟨.inr ⟨gid, m, hlen, rfl, rfl, hgood⟩, by simp⟩, fun r => only_ofExcept r⟩

/-- An answer that says no says nothing else. -/
theorem agreeable_writeJoinErr (e : GoErr) : (writeJoinErr e).Only (Agreeable L foundings Good l) := by
  refine ⟨⟨trivial, ?_⟩, fun _ => trivial⟩
  rintro q req resp - heq hok
  rw [← NodeOp.replyJoin.inj heq] at hok
  exact absurd hok (by simp)

include hC hnorm

/-- An invite that passes its check has a signature. -/
theorem wp_verify_selfSigned (inv : Invite) (w : Overlay) :
    wp (agreedEnv L foundings Good l) (inv.verify L) (onOk fun _ _ => inv.selfSigned L = true) w := by
  unfold Invite.verify
  split
  · trivial
  · refine ⟨Inert.guard hC hnorm (o := .now) trivial w, fun t w' _ => ?_⟩
    simp only [bind_eq, ret_bind]
    split_ifs with hexp hsig
    · trivial
    · trivial
    · simpa using hsig

/-- `handleJoin` admits who asks, and answers with the group as it was founded. -/
theorem wp_admitPeer_agreed {q addr : Bytes} {req : JoinRequest}
    (hinv : req.invite = some inv) (hgood : ∀ m : Member, m.peerID = q → Good inv.groupID m)
    (hid : g.id = inv.groupID) (hrec : Rightful foundings n g) (w : Overlay) :
    wp (agreedEnv L foundings Good (n, .serves q req)) (admitPeer L q addr req inv g)
      (fun _ _ => True) w := by
  have hlen := hrec.founded.length_id
  refine ⟨Inert.guard hC hnorm (o := .now) trivial w, fun t w' _ => ?_⟩
  simp only [bind_eq, ret_bind]
  split
  · exact wp_of_agreeable hC hnorm (agreeable_writeJoinErr _) w'
  rename_i sig _
  have hput : (putMember L g.id (joinedMember L g inv req q addr t sig)).Only
      (Agreeable L foundings Good (n, .serves q req)) := by
    apply agreeable_putMember hlen
    rw [hid]
    exact hgood _ rfl
  rw [wp_bind, wp_attempt]
  refine wp_mono (wp_of_agreeable hC hnorm hput w') fun r w'' _ => ?_
  rw [andThen_ok]
  split
  · exact wp_of_agreeable hC hnorm (agreeable_writeJoinErr _) w''
  refine wp_bind_of (wp_listMembers_good hC hnorm hlen w'') (fun res v hres => ?_) fun _ _ _ => trivial
  have hreply : Agreeable L foundings Good (n, .serves q req)
      (.replyJoin (joinedResponse g t sig res.1)) := by
    refine ⟨trivial, ?_⟩
    rintro q' req' resp hrole ⟨rfl⟩ -
    cases hrole
    exact ⟨⟨inv, hinv, hid.symm⟩, hrec.founded, hres⟩
  refine ⟨hreply.guard hC hnorm v, fun r v' _ => ?_⟩
  simp only [bind_eq, ret_bind]
  split
  · trivial
  · refine wp_of_agreeable hC hnorm (only_slice12_long ?_) v'
    rw [hlen]
    decide

/-- Letting a peer in. -/
theorem wp_handleJoin_agreed {q : Bytes} (addr : Bytes) {req : JoinRequest}
    (hgood : ∀ inv, req.invite = some inv → inv.selfSigned L = true → ∀ m : Member, m.peerID = q →
      Good inv.groupID m) (w : Overlay) :
    wp (agreedEnv L foundings Good (n, .serves q req)) (handleJoin L q addr (.ok req))
      (fun _ _ => True) w := by
  unfold handleJoin
  simp only
  split
  · exact wp_of_agreeable hC hnorm (agreeable_writeJoinErr _) w
  rename_i inv hinv
  rw [wp_bind, wp_attempt]
  refine wp_mono (wp_verify_selfSigned hC hnorm inv w) fun r w' hsigned => ?_
  rw [andThen_ok]
  split
  · exact wp_of_agreeable hC hnorm (agreeable_writeJoinErr _) w'
  rw [wp_bind, wp_attempt]
  refine wp_mono (wp_loadByID_recorded hC hnorm _ w') fun r w'' hrec => ?_
  rw [andThen_ok]
  split
  · exact wp_of_agreeable hC hnorm (agreeable_writeJoinErr _) w''
  · exact wp_admitPeer_agreed hC hnorm hinv (hgood inv hinv hsigned) hrec.1 hrec.2 w''

omit hC hnorm

/-- A join installs the group as it was founded, and good entries. -/
theorem agreeable_installResponse (hgenuine : inv.Genuine foundings) {me : JoinIdentity}
    {resp : JoinResponse} (htrue : Truthful foundings Good (joinRequest me inv) resp) :
    (installResponse L inv resp).Only (Agreeable L foundings Good l) := by
  obtain ⟨inv', hinv, hgid⟩ := htrue.invited
  obtain rfl : inv = inv' := Option.some.inj hinv
  refine (only_installResponse inv resp).mono fun o ho => ?_
  cases o with
  | storePut key value =>
    refine ⟨?_, by simp⟩
    rcases ho with ⟨rfl, rfl⟩ | ⟨m, hm, rfl, rfl⟩
    · refine .inl ⟨replica inv resp, rfl, rfl, htrue.founded.length_pub,
        htrue.founded.id_eq, fun _ => ⟨rfl, ?_⟩⟩
      refine ⟨htrue.founded.length_pub, htrue.founded.id_eq, htrue.founded.name_eq, ?_⟩
      -- The key is that of the invite, or else that of the answer.
      simp only [replica]
      split_ifs with hempty
      · exact htrue.founded.key_eq
      · rw [hgenuine.resolve_left hempty, hgid]
    · exact .inr ⟨resp.groupID, m, htrue.founded.length_id, rfl, rfl, htrue.members m hm⟩
  | _ => exact ho.elim

include hC hnorm

/-- Joining by a genuine invite. -/
theorem wp_joinViaPeer_agreed (target : Bytes) (me : JoinIdentity) (hgenuine : inv.Genuine foundings)
    (w : Overlay) :
    wp (agreedEnv L foundings Good l) (joinViaPeer L me target inv >>= fun _ => ret ())
      (fun _ _ => True) w := by
  rw [joinViaPeer_eq]
  refine ⟨Inert.guard hC hnorm (o := .sendJoin target (joinRequest me inv)) trivial w, ?_⟩
  rintro ans w' ⟨v, hI, -, -, hans⟩
  refine wp_of_agreeable hC hnorm (only_bind ?_ fun _ => by trivial) w'
  rcases takeAnswer_cases L inv ans with ⟨e, he, -⟩ | ⟨resp, rfl, hok, he⟩
  · rw [he]
    trivial
  · rw [he]
    rcases hans with ⟨e, he⟩ | ⟨resp', hmem, heq⟩
    · exact absurd he (by simp)
    · obtain rfl := Except.ok.inj heq
      exact agreeable_installResponse hgenuine (hI.answered _ _ _ resp hmem hok)

omit hC hnorm

/-- Taking over a good entry. -/
theorem agreeable_syncMember (hlen : g.id.length = 2 * publicKeySize)
    (hgood : Good g.id m) (st : List Bytes × ℕ) :
    (syncMember L self g st m).Only (Agreeable L foundings Good l) := by
  have hcut : (slice12 g.id).Only (Agreeable L foundings Good l) :=
    only_slice12 (Inert.agreeable (o := .panic) trivial) g.id
  unfold syncMember
  split
  · trivial
  · refine only_bind (only_orPanic (Inert.agreeable (o := .panic) trivial) _) fun ok => ?_
    split
    · exact only_bind hcut fun _ => by trivial
    · refine only_bind (only_attempt (agreeable_putMember hlen hgood)) fun r => ?_
      split <;> exact only_bind hcut fun _ => by trivial

include hC hnorm

/-- Asking a peer for its table. -/
theorem wp_syncPeer_agreed (hlen : g.id.length = 2 * publicKeySize) (st : List Bytes × ℕ)
    (pid : Bytes) (w : Overlay) :
    wp (agreedEnv L foundings Good l) (syncPeer L self g st pid) (fun _ _ => True) w := by
  rw [syncPeer_eq]
  refine ⟨Inert.guard hC hnorm (o := .sendMembers pid ⟨g.id⟩) trivial w, ?_⟩
  rintro r w' ⟨v, hI, -, -, hr⟩
  rcases hr with ⟨e, rfl⟩ | ⟨resp, hserved, rfl⟩
  · trivial
  · simp only [takeMembers]
    split
    · exact wp_of_agreeable hC hnorm (only_foldlM (fun st m hm =>
        agreeable_syncMember hlen (hI.served hlen hserved m hm) st) st) w'
    · trivial

/-- The sync of a group. -/
theorem wp_syncGroup_agreed (connected : List Bytes) (hlen : g.id.length = 2 * publicKeySize) (w : Overlay) :
    wp (agreedEnv L foundings Good l) (syncGroup L self connected g) (fun _ _ => True) w := by
  rw [syncGroup_eq]
  refine ⟨Inert.guard hC hnorm (o := .storeIterate (memberPrefix g.id)) trivial w, fun r w' _ => ?_⟩
  refine wp_bind_of (P := fun _ _ => True) ?_ (fun st v _ => ?_) fun _ _ _ => trivial
  · refine wp_foldlM (fun _ _ _ => True) (fun _ _ _ => trivial) (fun pid rest st v _ => ?_)
      connected _ w' trivial
    refine wp_mono (wp_syncPeer_agreed hC hnorm hlen st pid v) fun r _ _ => ?_
    cases r <;> trivial
  · split
    · exact wp_of_agreeable hC hnorm (only_slice12 (Inert.agreeable (o := .panic) trivial) g.id) v
    · trivial

/-- A round of the sync. -/
theorem wp_syncGroupMembers_agreed (w : Overlay) :
    wp (agreedEnv L foundings Good l) (syncGroupMembers L self) (fun _ _ => True) w := by
  refine wp_bind_of (wp_listGroups_recorded hC hnorm w) (fun res w' hrec => ?_) fun _ _ _ => trivial
  split
  · trivial
  rename_i groups
  refine ⟨Inert.guard hC hnorm (o := .connected) trivial w', fun connected v _ => ?_⟩
  simp only [bind_eq, ret_bind]
  split
  · trivial
  refine wp_foldlM (fun gs _ _ => gs ⊆ groups) (fun _ _ _ => trivial) (fun g gs _ v hgs => ?_) groups () v
    (List.Subset.refl _)
  have hlen := (hrec g (hgs List.mem_cons_self)).founded.length_id
  refine wp_mono (wp_syncGroup_agreed hC hnorm connected hlen v) fun r _ _ => ?_
  cases r with
  | error e => trivial
  | ok _ => exact fun x hx => hgs (List.mem_cons_of_mem _ hx)

/-- A new group is recorded at its founder, who is its first member. -/
theorem wp_handleCreateGroup_agreed (hE : L.ed25519.Ideal) (me : JoinIdentity) (name : Bytes)
    (w : Overlay) :
    wp (agreedEnv L foundings Good (n, .founds)) (handleCreateGroup L me n name >>= fun _ => ret ())
      (fun _ _ => True) w := by
  refine wp_bind_of (P := fun _ _ => True) ?_ (fun _ _ _ => trivial) fun _ _ _ => trivial
  unfold handleCreateGroup
  split
  · trivial
  refine ⟨Inert.guard hC hnorm (o := .rand seedSize) trivial w, fun seed w₁ _ => ?_⟩
  cases seed with
  | error e => trivial
  | ok seed =>
    refine ⟨Inert.guard hC hnorm (o := .rand 32) trivial w₁, fun sk w₂ _ => ?_⟩
    cases sk with
    | error e => trivial
    | ok sk =>
      refine ⟨Inert.guard hC hnorm (o := .now) trivial w₂, fun t w₃ _ => ?_⟩
      simp only [bind_eq, pure_eq, ret_bind]
      have hpub := (newGroup_usable hE name sk.1 seed.2 t).2
      have hlen : (newGroup L name seed.1 sk.1 t).id.length = 2 * publicKeySize := by
        rw [newGroup, length_hexEncode]
        exact congrArg (2 * ·) hpub
      have hadmin : (newGroup L name seed.1 sk.1 t).isAdminNode = true := rfl
      have hsave : Agreeable L foundings Good (n, .founds)
          (.storePut (groupKey (newGroup L name seed.1 sk.1 t).id)
          (L.cbor.group.marshal (newGroup L name seed.1 sk.1 t))) :=
        ⟨.inl ⟨_, rfl, rfl, hpub, rfl, fun hno => absurd (hno.symm.trans hadmin) (by simp)⟩, by simp⟩
      refine ⟨hsave.guard hC hnorm w₃, ?_⟩
      rintro r w₄ ⟨v, -, hfounds, -⟩
      obtain ⟨-, hgood⟩ := hfounds (List.prefix_append _ _) _ rfl hadmin
      cases r with
      | error e => trivial
      | ok _ =>
        refine wp_of_agreeable hC hnorm ?_ w₄
        refine ⟨Inert.agreeable (o := .now) trivial, fun t' => ?_⟩
        simp only [bind_eq, ret_bind]
        refine only_bind (only_ofExcept _) fun sig => ?_
        exact only_bind (agreeable_putMember hlen (hgood _ rfl)) fun _ => by trivial

/-- Every program of a node keeps the agreement. -/
theorem OverlayTask.agreed (hE : L.ed25519.Ideal) {p : NodeM Unit} (hp : OverlayTask L foundings Good l p)
    (w : Overlay) : wp (agreedEnv L foundings Good l) p (fun _ _ => True) w := by
  cases hp with
  | join n q addr h => exact wp_handleJoin_agreed hC hnorm addr h w
  | joining n target me h => exact wp_joinViaPeer_agreed hC hnorm target me h w
  | sync n => exact wp_syncGroupMembers_agreed hC hnorm w
  | create n name me => exact wp_handleCreateGroup_agreed hC hnorm hE me name w

omit hC hnorm

/-- Other records do not matter to the agreement. -/
theorem Accord.drift (h : Accord L foundings Good w) (hd : (overlay L foundings Good).drift w w') :
    Accord L foundings Good w' := by
  obtain ⟨n, key, raw, hgroup, hmember, rfl⟩ := hd
  refine ⟨fun k key' raw' g hpre hget hdec => ?_, fun k key' raw' m hpre hget hdec => ?_, h.answered⟩
  · rcases Overlay.get_set_putKey hget with hget | ⟨-, rfl, -⟩
    · exact h.group k key' raw' g hpre hget hdec
    · exact absurd hpre hgroup
  · rcases Overlay.get_set_putKey hget with hget | ⟨-, rfl, -⟩
    · exact h.member k key' raw' m hpre hget hdec
    · exact absurd hpre hmember

include hC hnorm

/-- Whatever the nodes do at the same time, they agree. -/
theorem accord_of_reach (hE : L.ed25519.Ideal) {ps : List (Place × NodeM Unit)}
    (h : (overlay L foundings Good).Reach .fresh w ps) : Accord L foundings Good w :=
  (h.invariant accord_fresh (fun _ _ hI hd => hI.drift hd)
    fun _ _ w hp => OverlayTask.agreed hC hnorm hE hp w).1

end Agreement

/-! ## Agreement -/

section Results

variable {L : Libs} {foundings : Bytes → Founding} {Asked : Bytes → Bytes → Prop} {w : Overlay}
  {ps : List (Place × NodeM Unit)}

/-- The entries of peers that have asked to be let into a group. -/
def Asking (Asked : Bytes → Bytes → Prop) (gid : Bytes) (m : Member) : Prop := Asked gid m.peerID

/-- Nodes found groups, let each other in and exchange their tables in any order, and messages get lost. Any
two records of a group have the same admin key, name and shared key, the id is the key in hex, and two nodes
that can act as the admin are one. -/
theorem groups_agree (hC : L.cbor.Lawful) (hE : L.ed25519.Ideal)
    (h : (overlay L foundings (Asking Asked)).Reach .fresh w ps) {n n' : Bytes} {g g' : Group}
    (hg : g ∈ (w.node n).groups L) (hg' : g' ∈ (w.node n').groups L) (hid : g.id = g'.id) :
    g.id = hexEncode g.adminPub ∧ g.adminPub = g'.adminPub ∧ g.name = g'.name ∧ g.sharedKey = g'.sharedKey ∧
      (g.isAdminNode = true ∨ g.adminPriv ≠ [] → g'.isAdminNode = true ∨ g'.adminPriv ≠ [] → n = n') := by
  have hI := accord_of_reach hC (fun _ _ hasked => hasked) hE h
  have hrec := hI.recorded hg
  have hrec' := hI.recorded hg'
  refine ⟨hrec.founded.id_eq, ?_, ?_, ?_, ?_⟩
  · apply hexEncode_inj
    rw [← hrec.founded.id_eq, ← hrec'.founded.id_eq, hid]
  · rw [hrec.founded.name_eq, hrec'.founded.name_eq, hid]
  · rw [hrec.founded.key_eq, hrec'.founded.key_eq, hid]
  · intro hadmin hadmin'
    rw [hrec.admin hadmin, hrec'.admin hadmin', hid]

/-- Whoever is in the member table that a node has of one of its groups has asked to be let into it, with an
invite that has a signature, or has founded it. -/
theorem members_joined (hC : L.cbor.Lawful) (hE : L.ed25519.Ideal)
    (h : (overlay L foundings (Asking Asked)).Reach .fresh w ps) {n : Bytes} {g : Group}
    (hg : g ∈ (w.node n).groups L) {m : Member} (hm : m ∈ (w.node n).members L g.id) :
    Asked g.id m.peerID := by
  have hI := accord_of_reach hC (fun _ _ hasked => hasked) hE h
  exact hI.good (hI.recorded hg).founded.length_id hm

end Results

/-! ## A founder and a peer that joins -/

section Sample

variable {L : Libs} {foundings : Bytes → Founding} {Good : Bytes → Member → Prop}

/-- An operation that only the node itself sees. -/
def Local (L : Libs) (foundings : Bytes → Founding) (Good : Bytes → Member → Prop) (n : Bytes) (o : NodeOp) :
    Prop :=
  Founds L foundings Good n o ∧ match o with
    | .sendJoin _ _ | .sendMembers _ _ | .replyJoin _ => False
    | _ => True

/-- A node does something that the others do not see. -/
theorem steps_local {w : Overlay} {l : Place} {s s' : NodeState} {α : Type} {p p' : NodeM α}
    {evs : List NodeEvent} (h : Steps nodeEnv s p evs s' p')
    (hevs : ∀ e ∈ evs, Local L foundings Good l.1 e.op) :
    Steps ((overlay L foundings Good).alone l) (w.set l.1 s) p evs (w.set l.1 s') p' := by
  induction h with
  | refl s p => exact .refl _ _
  | @op s₁ s₂ s₃ o r k evs p' hs _ ih =>
    obtain ⟨hfounds, hlocal⟩ := hevs ⟨o, r⟩ List.mem_cons_self
    have hnode : ∃ s', ((w.set l.1 s₁).node l.1).step o r s' ∧ w.set l.1 s₂ = (w.set l.1 s₁).set l.1 s' := by
      refine ⟨s₂, ?_, by simp [Overlay.set]⟩
      rw [Overlay.node_set_self]
      exact hs
    have hstep : ((overlay L foundings Good).alone l).step (w.set l.1 s₁) o r (w.set l.1 s₂) := by
      refine ⟨hfounds, ?_⟩
      cases o with
      | sendJoin x req | sendMembers x req | replyJoin resp => exact hlocal.elim
      | _ => exact hnode
    exact .op hstep (ih fun e he => hevs e (List.mem_cons_of_mem _ he))

/-- The state of a node that has let a peer in. -/
def NodeState.admitted (L : Libs) (s : NodeState) (g : Group) (inv : Invite)
    (req : JoinRequest) (q addr : Bytes)
    (t : ℤ) (sig : Bytes) : NodeState :=
  s.putKey (memberKey g.id q) (L.cbor.member.marshal (joinedMember L g inv req q addr t sig))

/-- An admission changes no group. -/
theorem NodeState.group_admitted (s : NodeState) (g : Group) (inv : Invite) (req : JoinRequest)
    (q addr : Bytes) (t : ℤ) (sig gid : Bytes) :
    (s.admitted L g inv req q addr t sig).group L gid = s.group L gid := by
  rw [group, group, admitted, putKey, SortedMap.get_put_ne _ (groupKey_ne_memberKey _ _ _)]

/-- A node lets a peer in whose invite passes `Verify`. It could not read its list of members, and answers
without. -/
theorem steps_serves {w : Overlay} {s : NodeState} {req : JoinRequest} {inv : Invite} {g : Group}
    (n q addr : Bytes) (hinv : req.invite = some inv) (hgroup : s.group L inv.groupID = some g)
    (hlong : 12 ≤ g.id.length) (hlen : (sliceBytes inv.groupAdminPub).length = publicKeySize)
    (hself : inv.selfSigned L = true) {t₀ : ℤ} (ht : unix t₀ ≤ inv.expiresAt) {t : ℤ} {sig : Bytes}
    (hadm : admission L g q t = .ok sig) :
    ∃ evs, Steps ((overlay L foundings Good).alone (n, .serves q req)) (w.set n s)
      (handleJoin L q addr (.ok req)) evs
      ((w.set n (s.admitted L g inv req q addr t sig)).answer n q req (joinedResponse g t sig []))
      (ret ()) := by
  obtain ⟨raw, hload⟩ := steps_loadByID hgroup
  let put : NodeEvent := ⟨.storePut (memberKey g.id q)
    (L.cbor.member.marshal (joinedMember L g inv req q addr t sig)), .ok ()⟩
  let list : NodeEvent := ⟨.storeIterate (memberPrefix g.id), ([], some .eof)⟩
  have hlocal : ∀ {s s' : NodeState} {α : Type} {p p' : NodeM α} {e : NodeEvent},
      Steps nodeEnv s p [e] s' p' →
      Local L foundings Good n e.op → Steps ((overlay L foundings Good).alone (n, .serves q req))
        (w.set n s) p [e]
        (w.set n s') p' := by
    intro s s' α p p' e hsteps he
    refine steps_local (l := (n, .serves q req)) hsteps fun e' he' => ?_
    rw [List.mem_singleton.mp he']
    exact he
  have hverify := hlocal (steps_verify (s := s) hlen hself ht) ⟨trivial, trivial⟩
  have hnow : Steps ((overlay L foundings Good).alone (n, .serves q req)) (w.set n s) now
      [⟨.now, t⟩] (w.set n s)
      (ret t) := hlocal (.op rfl (.refl _ _)) ⟨trivial, trivial⟩
  have hput : Steps ((overlay L foundings Good).alone (n, .serves q req)) (w.set n s)
      (putMember L g.id (joinedMember L g inv req q addr t sig)) [put]
      (w.set n (s.admitted L g inv req q addr t sig)) (ret ()) := by
    refine hlocal (.op (.inl ⟨rfl, rfl⟩) (.refl _ _)) ⟨fun hpre => ?_, trivial⟩
    exact absurd hpre (not_prefix_memberKey _ _)
  have hlist : Steps ((overlay L foundings Good).alone (n, .serves q req))
      (w.set n (s.admitted L g inv req q addr t sig))
      (listMembers L g.id) [list] (w.set n (s.admitted L g inv req q addr t sig)) (ret ([], some .eof)) :=
    hlocal (.op ⟨rfl, .inr ⟨[], .eof, List.nil_prefix, rfl⟩⟩ (.refl _ _)) ⟨trivial, trivial⟩
  have hend : Steps ((overlay L foundings Good).alone (n, .serves q req))
      ((w.set n (s.admitted L g inv req q addr t sig)).answer n q req (joinedResponse g t sig []))
      (slice12 g.id) []
      ((w.set n (s.admitted L g inv req q addr t sig)).answer n q req (joinedResponse g t sig []))
      (ret ()) := by
    rw [slice12_of_le hlong]
    exact .refl _ _
  have hadmission : Steps ((overlay L foundings Good).alone (n, .serves q req)) (w.set n s)
      (admitPeer L q addr req inv g)
      ([⟨.now, t⟩] ++ ([put] ++ ([list] ++ [⟨.replyJoin (joinedResponse g t sig []), .ok ()⟩])))
      ((w.set n (s.admitted L g inv req q addr t sig)).answer n q req (joinedResponse g t sig []))
      (ret ()) := by
    unfold admitPeer
    refine hnow.bind ?_
    simp only [hadm]
    exact hput.attempt.bind (hlist.bind (.op ⟨trivial, .inr ⟨q, req, rfl, rfl⟩⟩ hend))
  simp only [handleJoin, hinv]
  exact ⟨_, hverify.attempt.bind ((hlocal hload ⟨trivial, trivial⟩).attempt.bind hadmission)⟩

/-- What is decided for the group that a node founds. -/
def sampleFoundings (_ : Bytes) : Founding := ⟨lit "nas", List.replicate 32 1, lit "alice"⟩

/-- The founder and two peers. -/
def SampleAsked (_ q : Bytes) : Prop := q = lit "alice" ∨ q = lit "bob" ∨ q = lit "carol"

/-- The nodes of these. -/
abbrev sampleOverlay : System NodeSig Overlay Place GoErr Unit :=
  overlay sampleLibs sampleFoundings (Asking SampleAsked)

/-- Two groups with one encoding differ in their times at most. -/
theorem norm_eq_of_marshal {g g' : Group} (hvalid : g.validText = true)
    (h : sampleCbor.group.marshal g = sampleCbor.group.marshal g') : g.norm = g'.norm := by
  have hdec := sampleCbor_lawful.group.unmarshal_marshal hvalid
  rw [h] at hdec
  exact sampleCbor_lawful.group.eq_norm hdec

/-- The record of a group is decided by its founder. -/
theorem founds_sampleGroup : Founds sampleLibs sampleFoundings (Asking SampleAsked) (lit "alice")
    (.storePut (groupKey (sampleGroup 7).id) (sampleLibs.cbor.group.marshal (sampleGroup 7))) := by
  rintro - g heq -
  have hnorm := norm_eq_of_marshal (by decide) heq
  have hname : (sampleGroup 7).norm.name = g.norm.name := by rw [hnorm]
  have hkey : (sampleGroup 7).norm.sharedKey = g.norm.sharedKey := by rw [hnorm]
  refine ⟨?_, fun m hm => .inl hm⟩
  change (⟨(sampleGroup 7).norm.name, (sampleGroup 7).norm.sharedKey, lit "alice"⟩ : Founding) = _
  rw [hname, hkey]
  rfl

variable (L) in
/-- A node founds a group, and does not get to write its own entry. -/
theorem steps_founds (me : JoinIdentity) (self : Bytes) {name seed sk : Bytes} (t : ℤ) (hname : name ≠ [])
    (hseed : seed.length = seedSize) (hsk : sk.length = 32)
    (hpriv : (L.ed25519.newKeyFromSeed seed).length = privateKeySize)
    (hfounds : Founds L foundings Good self (.storePut (groupKey (newGroup L name seed sk t).id)
      (L.cbor.group.marshal (newGroup L name seed sk t)))) :
    ∃ evs, Steps nodeEnv .fresh (handleCreateGroup L me self name >>= fun _ => ret ()) evs
      (NodeState.fresh.putKey (groupKey (newGroup L name seed sk t).id)
        (L.cbor.group.marshal (newGroup L name seed sk t))) (fail .eof) ∧
      ∀ e ∈ evs, Local L foundings Good self e.op := by
  have hadmission : admitMember L (newGroup L name seed sk t) self 0 =
      .ok (L.ed25519.sign (L.ed25519.newKeyFromSeed seed)
        (admitMessage (newGroup L name seed sk t).id self 0)) :=
    if_neg (not_not.mpr hpriv)
  let put : NodeOp := .storePut (groupKey (newGroup L name seed sk t).id)
    (L.cbor.group.marshal (newGroup L name seed sk t))
  let entry : Member :=
    { peerID := self, nickname := me.nickname, nodePub := me.nodePub, encPub := me.encPub,
      contributedB := me.contributed, joinedAt := 0
      admittedBySig := L.ed25519.sign (L.ed25519.newKeyFromSeed seed)
        (admitMessage (newGroup L name seed sk t).id self 0) }
  refine ⟨[⟨.rand seedSize, .ok ⟨seed, hseed⟩⟩, ⟨.rand 32, .ok ⟨sk, hsk⟩⟩, ⟨.now, t⟩,
    ⟨put, .ok ()⟩, ⟨.now, 0⟩,
    ⟨.storePut (memberKey (newGroup L name seed sk t).id self) (L.cbor.member.marshal entry), .error .eof⟩],
      ?_, ?_⟩
  · unfold handleCreateGroup
    rw [if_neg hname]
    refine .op rfl (.op rfl (.op rfl (.op (.inl ⟨rfl, rfl⟩) (.op rfl ?_))))
    change Steps nodeEnv _ ((Prog.ofExcept (admitMember L (newGroup L name seed sk t) self 0) >>= _) >>= _) _
      _ _
    rw [hadmission]
    exact .op (.inr ⟨⟨_, rfl⟩, rfl⟩) (.refl _ _)
  · simp only [List.mem_cons, List.not_mem_nil, or_false, forall_eq_or_imp, forall_eq]
    refine ⟨⟨trivial, trivial⟩, ⟨trivial, trivial⟩, ⟨trivial, trivial⟩, ⟨hfounds, trivial⟩,
      ⟨trivial, trivial⟩, ?_⟩
    exact ⟨fun hpre => absurd hpre (not_prefix_memberKey _ _), trivial⟩

/-- A node founds a group. -/
theorem exists_sampleFounded :
    ∃ ps, sampleOverlay.Reach .fresh (Overlay.fresh.set (lit "alice") sampleNode) ps := by
  have hgroup : newGroup sampleLibs (lit "nas") (List.replicate 32 7) (List.replicate 32 1)
      0 = sampleGroup 7 := by
    decide
  have hsteps : ∃ evs, Steps nodeEnv .fresh
      (handleCreateGroup sampleLibs sampleIdentity (lit "alice") (lit "nas") >>= fun _ => ret ())
        evs sampleNode
      (fail .eof) ∧ ∀ e ∈ evs, Local sampleLibs sampleFoundings (Asking SampleAsked) (lit "alice") e.op := by
    have hfounds := founds_sampleGroup
    rw [← hgroup] at hfounds
    have hsteps := steps_founds sampleLibs sampleIdentity (lit "alice") 0 (by decide) rfl rfl rfl hfounds
    rw [hgroup] at hsteps
    exact hsteps
  obtain ⟨evs, hsteps, hlocal⟩ := hsteps
  have hrun := steps_local (w := .fresh) (l := (lit "alice", .founds)) hsteps hlocal
  rw [show Overlay.fresh.set (lit "alice") .fresh = Overlay.fresh from Overlay.set_node .fresh
    (lit "alice")] at hrun
  exact ⟨_, System.Reach.init.run (.create (lit "alice") (lit "nas") sampleIdentity) hrun⟩

/-- The request of a peer with an invite of the admin. -/
def sampleJoin : JoinRequest := joinRequest sampleIdentity (sampleInvite (sampleGroup 7) 7)

/-- The signature of the admission of a peer. -/
def sampleAdmission (q : Bytes) : Bytes :=
  sampleEd25519.sign (sampleKey 7) (admitMessage (sampleGroup 7).id q 0)

/-- The founder after it has let in a peer. -/
def sampleAlice : NodeState :=
  sampleNode.admitted sampleLibs (sampleGroup 7) (sampleInvite (sampleGroup 7) 7) sampleJoin (lit "bob") [] 0
    (sampleAdmission (lit "bob"))

/-- What it answers. -/
def sampleAnswer : JoinResponse := joinedResponse (sampleGroup 7) 0 (sampleAdmission (lit "bob")) []

/-- The record of the group at the peer. -/
def sampleReplica : Group := replica (sampleInvite (sampleGroup 7) 7) sampleAnswer

/-- The peer after it has joined. -/
def sampleBob : NodeState :=
  NodeState.fresh.putKey (groupKey sampleReplica.id) (sampleLibs.cbor.group.marshal sampleReplica)

/-- Both. -/
def samplePair : Overlay :=
  ((Overlay.fresh.set (lit "alice") sampleAlice).answer (lit "alice") (lit "bob") sampleJoin sampleAnswer).set
    (lit "bob") sampleBob

/-- The founder lets in a peer, which joins. -/
theorem exists_samplePair : ∃ ps, sampleOverlay.Reach .fresh samplePair ps := by
  obtain ⟨ps, hfounded⟩ := exists_sampleFounded
  have hinv : sampleJoin.invite = some (sampleInvite (sampleGroup 7) 7) := rfl
  obtain ⟨evs, hserves⟩ := steps_serves (w := .fresh) (lit "alice") (lit "bob")
    [] hinv group_sampleNode (by decide)
    (by decide) (selfSigned_sampleInvite _ 7)
    (show unix 0 ≤ (sampleInvite (sampleGroup 7) 7).expiresAt from show unix 0 ≤ 1000 by decide)
    (show admission sampleLibs (sampleGroup 7) (lit "bob") 0 = .ok (sampleAdmission (lit "bob")) from rfl)
  have hserved := hfounded.run (.join (lit "alice") (lit "bob") [] fun _ _ _ m hm => .inr (.inl hm)) hserves
  have hput : Founds sampleLibs sampleFoundings (Asking SampleAsked) (lit "bob")
      (.storePut (groupKey sampleReplica.id) (sampleLibs.cbor.group.marshal sampleReplica)) := by
    rintro - g heq hadmin
    have hnorm := norm_eq_of_marshal (by decide) heq
    have hrole : sampleReplica.norm.isAdminNode = g.norm.isAdminNode := by rw [hnorm]
    exact absurd (hrole.trans hadmin) (by decide)
  have hjoins : Steps (sampleOverlay.alone (lit "bob", .joins))
      ((Overlay.fresh.set (lit "alice") sampleAlice).answer (lit "alice") (lit "bob") sampleJoin sampleAnswer)
      (joinViaPeer sampleLibs sampleIdentity (lit "alice")
        (sampleInvite (sampleGroup 7) 7) >>= fun _ => ret ())
      [⟨.sendJoin (lit "alice") sampleJoin, .ok sampleAnswer⟩,
        ⟨.storePut (groupKey sampleReplica.id) (sampleLibs.cbor.group.marshal sampleReplica), .ok ()⟩]
      samplePair (ret ()) := by
    rw [joinViaPeer_eq]
    refine .op ⟨trivial, rfl, .inr ⟨_, List.mem_cons_self, rfl⟩⟩ ?_
    exact .op ⟨hput, sampleBob, .inl ⟨rfl, rfl⟩, rfl⟩ (.refl _ _)
  exact ⟨_, hserved.run (.joining (lit "bob") (lit "alice") sampleIdentity (.inl rfl)) hjoins⟩

/-- The founder has the group. -/
theorem group_samplePair_alice :
    (samplePair.node (lit "alice")).group sampleLibs (sampleGroup 7).id = some (sampleGroup 7) := by
  have hnode : samplePair.node (lit "alice") = sampleAlice := rfl
  rw [hnode, sampleAlice, NodeState.group_admitted, group_sampleNode]

/-- The peer that joined has its replica. -/
theorem group_samplePair_bob :
    (samplePair.node (lit "bob")).group sampleLibs (sampleGroup 7).id = some sampleReplica.norm :=
  NodeState.group_putKey sampleCbor_lawful .fresh sampleReplica (by decide)

/-- The founder and the peer have the same group. -/
theorem samplePair_agrees :
    ∃ ps g g', sampleOverlay.Reach .fresh samplePair ps ∧
      g ∈ (samplePair.node (lit "alice")).groups sampleLibs ∧
      g' ∈ (samplePair.node (lit "bob")).groups sampleLibs ∧ g.id = g'.id ∧
      (g.id = hexEncode g.adminPub ∧ g.adminPub = g'.adminPub ∧ g.name = g'.name ∧
        g.sharedKey = g'.sharedKey ∧
        (g.isAdminNode = true ∨ g.adminPriv ≠ [] → g'.isAdminNode = true ∨ g'.adminPriv ≠ [] →
          lit "alice" = lit "bob")) := by
  obtain ⟨ps, hreach⟩ := exists_samplePair
  have halice := NodeState.mem_groups group_samplePair_alice
  have hbob := NodeState.mem_groups group_samplePair_bob
  exact ⟨ps, _, _, hreach, halice, hbob, rfl, groups_agree sampleCbor_lawful sampleEd25519_ideal
    hreach halice hbob rfl⟩

/-- The peer is in the table of the founder, and has asked. -/
theorem samplePair_joined :
    ∃ ps m, sampleOverlay.Reach .fresh samplePair ps ∧
      m ∈ (samplePair.node (lit "alice")).members sampleLibs (sampleGroup 7).id ∧ m.peerID = lit "bob" ∧
      SampleAsked (sampleGroup 7).id m.peerID := by
  obtain ⟨ps, hreach⟩ := exists_samplePair
  have hentry : (samplePair.node (lit "alice")).member sampleLibs (sampleGroup 7).id (lit "bob") =
      some (joinedMember sampleLibs (sampleGroup 7) (sampleInvite (sampleGroup 7) 7) sampleJoin
        (lit "bob") [] 0
        (sampleAdmission (lit "bob"))).norm :=
    NodeState.member_putKey sampleCbor_lawful sampleNode (sampleGroup 7).id
      (joinedMember sampleLibs (sampleGroup 7) (sampleInvite (sampleGroup 7) 7) sampleJoin (lit "bob") [] 0
        (sampleAdmission (lit "bob"))) (by decide)
  have hmem := mem_members_of_member hentry
  exact ⟨ps, _, hreach, hmem, rfl, members_joined sampleCbor_lawful sampleEd25519_ideal hreach
    (NodeState.mem_groups group_samplePair_alice) hmem⟩

end Sample

end FnShare
