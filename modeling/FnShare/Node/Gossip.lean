import FnShare.Lib.Rounds
import FnShare.Node.Overlay

/-!
# Member entries spread

A peer that joins through one node becomes known to the others by their syncs: each asks the peers that it is
connected to, and takes over the entries with a proof of admission. Some syncs go through (`Steady`), while
joins, foundings and further syncs go on at all nodes. After `d` rounds, in each of which every node has
started and finished a sync of that kind, an entry has come as far as `d` steps from where it was
(`members_spread`).

An entry without a valid proof stops it. A node that has one does not take over a better one, and nobody takes
it over from there. So the entries of the peer have to have a proof wherever there are any, and the peer must
not join again, since the admin's signature on its entry is one for nanoseconds that are not stored.
-/

namespace FnShare

open Prog

section Gossip

variable (L : Libs) (foundings : Bytes → Founding) (g₀ : Group) (pid : Bytes) (nbr : Bytes → Bytes → Prop)

/-- An entry of the peer in the table of the group has a proof of admission, and has it still when it is
stored. -/
def Vouched (gid : Bytes) (m : Member) : Prop :=
  gid = g₀.id → m.peerID = pid → m.validText = true ∧ m.norm = m ∧ verifyMembership L g₀ m = some true

/-- A sync that goes through: the store works, and the neighbours of the node are connected and answer. -/
def Steady (l : Place) (w : Overlay) : (o : NodeOp) → o.Ans → Prop
  | .storePut _ _, r => l.2 = .syncs → r = .ok ()
  | .storeIterate _, r => l.2 = .syncs → r.2 = none
  | .connected, r => l.2 = .syncs → ∀ i, nbr l.1 i → i ∈ r
  | .sendMembers i req, r => l.2 = .syncs → nbr l.1 i → (w.node i).group L req.groupID ≠ none →
    r = .ok { groupID := req.groupID, members := (w.node i).members L req.groupID }
  | _, _ => True

/-- The nodes while syncs go through. -/
def gossip : System NodeSig Overlay Place GoErr Unit where
  exec l w o r w' := Steady L nbr l w o r ∧ (overlay L foundings (Vouched L g₀ pid)).exec l w o r w'
  start := (overlay L foundings (Vouched L g₀ pid)).start
  drift := (overlay L foundings (Vouched L g₀ pid)).drift

/-- A node has an entry of the peer. -/
def Enlisted (w : Overlay) (n : Bytes) : Prop := (w.node n).member L g₀.id pid ≠ none

/-- Nodes keep the group and the peer. -/
structure Grown (w w' : Overlay) : Prop where
  listed : ∀ n, Enlisted L g₀ pid w n → Enlisted L g₀ pid w' n
  group : ∀ n, (w.node n).group L g₀.id ≠ none → (w'.node n).group L g₀.id ≠ none

/-- What everything that happens keeps: where the nodes agree, they go on so, and keep what they have. -/
def Onward (w w' : Overlay) : Prop :=
  Accord L foundings (Vouched L g₀ pid) w → Accord L foundings (Vouched L g₀ pid) w' ∧ Grown L g₀ pid w w'

/-- In a round every node that has neighbours starts and finishes a sync. -/
def AllSync (new : List (Place × NodeM Unit)) : Prop := ∀ j i, nbr j i → ((j, .syncs), ret ()) ∈ new

end Gossip

/-! ## Nothing is lost -/

section Growth

variable {L : Libs} {foundings : Bytes → Founding} {g₀ : Group} {pid : Bytes} {nbr : Bytes → Bytes → Prop}
  {l : Place} {w w' v : Overlay}

/-- The time of an entry does not matter. -/
theorem vouched_norm (gid : Bytes) (m : Member) (h : Vouched L g₀ pid gid m) :
    Vouched L g₀ pid gid m.norm := by
  intro hgid hpid
  obtain ⟨hvalid, hnorm, hproof⟩ := h hgid hpid
  rw [hnorm]
  exact ⟨hvalid, hnorm, hproof⟩

/-- Nothing has changed. -/
theorem Grown.refl (w : Overlay) : Grown L g₀ pid w w := ⟨fun _ h => h, fun _ h => h⟩

/-- Tables grow further. -/
theorem Grown.trans (h : Grown L g₀ pid w v) (h' : Grown L g₀ pid v w') : Grown L g₀ pid w w' :=
  ⟨fun n hn => h'.listed n (h.listed n hn), fun n hn => h'.group n (h.group n hn)⟩

/-- Nothing has changed. -/
theorem onward_refl (w : Overlay) : Onward L foundings g₀ pid w w := fun h => ⟨h, .refl w⟩

/-- One change after another. -/
theorem onward_trans (u v w : Overlay) (h : Onward L foundings g₀ pid u v)
    (h' : Onward L foundings g₀ pid v w) : Onward L foundings g₀ pid u w := by
  intro hu
  obtain ⟨hv, huv⟩ := h hu
  obtain ⟨hw, hvw⟩ := h' hv
  exact ⟨hw, huv.trans hvw⟩

/-- Where the stores are the same, nothing is lost. -/
theorem grown_of_store (hstore : ∀ n, (w'.node n).store = (w.node n).store) : Grown L g₀ pid w w' := by
  constructor
  · intro n hn
    rwa [Enlisted, NodeState.member, hstore]
  · intro n hn
    rwa [NodeState.group, hstore]

/-- A key of a group whose id has the right length determines the group and the peer. -/
theorem memberKey_inj {gid gid' p p' : Bytes} (hlen : gid.length = gid'.length)
    (h : memberKey gid p = memberKey gid' p') : gid = gid' ∧ p = p' := by
  have hpre : memberPrefix gid <+: memberKey gid' p' := by
    rw [← h]
    exact List.prefix_append _ _
  obtain rfl := eq_of_prefix_memberKey hlen hpre
  exact ⟨rfl, List.append_cancel_left h⟩

/-- The text of a group as it was founded. -/
theorem validText_of_founded (hname : validUTF8 (foundings g₀.id).name = true) {g : Group}
    (hid : g.id = hexEncode g.adminPub) (hgid : g.id = g₀.id) (hg : g.name = (foundings g.id).name) :
    g.validText = true := by
  unfold Group.validText
  rw [hg, hgid, hname, Bool.and_true, ← hgid, hid]
  exact validUTF8_hexEncode _

/-- What a node stores keeps the group and the peer. -/
theorem grown_put (hC : L.cbor.Lawful) (hlen : g₀.id.length = 2 * publicKeySize)
    (hname : validUTF8 (foundings g₀.id).name = true) {n key value : Bytes}
    (hfounds : Founds L foundings (Vouched L g₀ pid) n (.storePut key value))
    (hput : Storing L foundings (Vouched L g₀ pid) (.storePut key value)) :
    Grown L g₀ pid w (w.set n ((w.node n).putKey key value)) := by
  have hkept : ∀ k key', key' ≠ key ∨ k ≠ n →
      ((w.set n ((w.node n).putKey key value)).node k).store.get key' = (w.node k).store.get key' := by
    intro k key' hne
    by_cases hk : k = n
    · subst hk
      rw [Overlay.node_set_self]
      exact SortedMap.get_put_ne _ (hne.resolve_right (not_not.mpr rfl)) _
    · rw [Overlay.node_set_ne w _ hk]
  constructor
  · intro k hk
    by_cases hsame : memberKey g₀.id pid = key ∧ k = n
    · obtain ⟨rfl, rfl⟩ := hsame
      rcases hput with ⟨g, hkey, -⟩ | ⟨gid, m, hgid, hkey, rfl, hgood⟩
      · exact absurd hkey.symm (groupKey_ne_memberKey _ _ _)
      · obtain ⟨rfl, hpid⟩ := memberKey_inj (hgid.trans hlen.symm) hkey.symm
        subst hpid
        rw [Enlisted, Overlay.node_set_self, NodeState.member_putKey hC _ _ m (hgood rfl rfl).1]
        simp
    · rw [Enlisted, NodeState.member, hkept k _ (not_and_or.mp hsame)]
      exact hk
  · intro k hk
    by_cases hsame : groupKey g₀.id = key ∧ k = n
    · obtain ⟨rfl, rfl⟩ := hsame
      rcases hput with ⟨g, hkey, rfl, -, hid, hrest⟩ | ⟨gid, m, -, hkey, -⟩
      · have hgid := (groupKey_inj hkey).symm
        have hgname : g.name = (foundings g.id).name := by
          cases hadmin : g.isAdminNode with
          | true => rw [(hfounds (List.prefix_append _ _) g rfl hadmin).1]
          | false => exact (hrest hadmin).2.name_eq
        have hvalid := validText_of_founded hname hid hgid hgname
        rw [Overlay.node_set_self, ← hgid, NodeState.group_putKey hC _ g hvalid]
        simp
      · exact absurd hkey (groupKey_ne_memberKey _ _ _)
    · rw [NodeState.group, hkept k _ (not_and_or.mp hsame)]
      exact hk

/-- Nothing is lost in a step. -/
theorem grown_of_exec (hC : L.cbor.Lawful) (hlen : g₀.id.length = 2 * publicKeySize)
    (hname : validUTF8 (foundings g₀.id).name = true) {o : NodeOp} {r : o.Ans}
    (ho : Storing L foundings (Vouched L g₀ pid) o) (hs : (gossip L foundings g₀ pid nbr).exec l w o r w') :
    Grown L g₀ pid w w' := by
  obtain ⟨-, hfounds, hexec⟩ := hs
  rcases Overlay.exec_cases hexec with ⟨-, hstore⟩ | ⟨key, value, rfl, rfl⟩ | ⟨q, req, resp, -, rfl, rfl⟩
  · exact grown_of_store hstore
  · exact grown_put hC hlen hname hfounds ho
  · exact grown_of_store fun _ => rfl

/-- Other records do not matter. -/
theorem grown_of_drift (hd : (overlay L foundings (Vouched L g₀ pid)).drift w w') : Grown L g₀ pid w w' := by
  obtain ⟨n, key, raw, hgroup, hmember, rfl⟩ := hd
  have hkept : ∀ k key', key' ≠ key →
      ((w.set n ((w.node n).putKey key raw)).node k).store.get key' = (w.node k).store.get key' := by
    intro k key' hne
    by_cases hk : k = n
    · subst hk
      rw [Overlay.node_set_self]
      exact SortedMap.get_put_ne _ hne _
    · rw [Overlay.node_set_ne w _ hk]
  constructor
  · intro k hk
    rw [Enlisted, NodeState.member, hkept]
    · exact hk
    · rintro rfl
      exact hmember (prefix_of_memberPrefix (List.prefix_append _ _))
  · intro k hk
    rw [NodeState.group, hkept]
    · exact hk
    · rintro rfl
      exact hgroup (List.prefix_append _ _)

/-- A program that keeps the agreement loses nothing. -/
theorem wp_onward (hC : L.cbor.Lawful) (hlen : g₀.id.length = 2 * publicKeySize)
    (hname : validUTF8 (foundings g₀.id).name = true) {α : Type} {p : NodeM α}
    (hp : wp (agreedEnv L foundings (Vouched L g₀ pid) l) p (fun _ _ => True) w)
    (hw : Accord L foundings (Vouched L g₀ pid) w) :
    wp ((gossip L foundings g₀ pid nbr).under (Onward L foundings g₀ pid) l) p
      (fun _ w' => Accord L foundings (Vouched L g₀ pid) w') w := by
  induction p generalizing w with
  | ret a => exact hw
  | fail e => exact hw
  | op o k ih =>
    obtain ⟨⟨hstoring, hkeeps⟩, hk⟩ := hp
    constructor
    · intro v _ r w' hs hv
      exact ⟨hkeeps v r w' hv hs.2, grown_of_exec hC hlen hname hstoring hs⟩
    · rintro r w' ⟨v, hwv, hs⟩
      obtain ⟨hv, -⟩ := hwv hw
      exact ih r (hk r w' ⟨v, hv, hs.2⟩) (hkeeps v r w' hv hs.2)

end Growth

/-! ## A sync that goes through -/

section Sync

variable {L : Libs} {foundings : Bytes → Founding} {g₀ g : Group} {pid i j : Bytes}
  {nbr : Bytes → Bytes → Prop}
  {w w' v : Overlay}

variable (L foundings g₀ pid i j) in
/-- The node `j` is about to hear of the peer from the node `i`. -/
structure Awaits (w : Overlay) : Prop where
  agreed : Accord L foundings (Vouched L g₀ pid) w
  listed : Enlisted L g₀ pid w i
  source : (w.node i).group L g₀.id ≠ none
  own : (w.node j).group L g₀.id ≠ none

/-- What is awaited is so while tables grow. -/
theorem Awaits.grown (h : Awaits L foundings g₀ pid i j w)
    (hagreed : Accord L foundings (Vouched L g₀ pid) w') (hgrown : Grown L g₀ pid w w') :
    Awaits L foundings g₀ pid i j w' :=
  ⟨hagreed, hgrown.listed i h.listed, hgrown.group i h.source, hgrown.group j h.own⟩

variable (L g₀ pid j) in
/-- If the sync takes the peer for known, it is. -/
def Knows (g : Group) (known : List Bytes) (w : Overlay) : Prop :=
  g.id = g₀.id → pid ∈ known → Enlisted L g₀ pid w j

/-- What is known stays known. -/
theorem Knows.grown {known : List Bytes} (h : Knows L g₀ pid j g known w) (hgrown : Grown L g₀ pid w w') :
    Knows L g₀ pid j g known w' :=
  fun hid hmem => hgrown.listed j (h hid hmem)

variable (L foundings g₀ pid nbr j) in
/-- The environment of a sync at the node `j`. -/
abbrev syncingEnv : Env NodeSig Overlay :=
  (gossip L foundings g₀ pid nbr).under (Onward L foundings g₀ pid) (j, .syncs)

/-- An entry is found where the agreement says that it is. -/
theorem enlisted_iff (hlen : g₀.id.length = 2 * publicKeySize)
    (hw : Accord L foundings (Vouched L g₀ pid) w) {n : Bytes} :
    Enlisted L g₀ pid w n ↔ ∃ m ∈ (w.node n).members L g₀.id, m.peerID = pid := by
  constructor
  · intro hn
    obtain ⟨m, hm⟩ := Option.ne_none_iff_exists'.mp hn
    obtain ⟨raw, hget, hdec⟩ := Option.bind_eq_some_iff.mp hm
    obtain ⟨hkey, -⟩ := hw.entry hlen hget (List.prefix_append _ _) (toOption_eq_some.mp hdec)
    exact ⟨m, mem_members_of_member hm, (List.append_cancel_left hkey).symm⟩
  · rintro ⟨m, hm, rfl⟩
    obtain ⟨key, raw, hget, hpre, hdec⟩ := (NodeState.mem_members_iff _ _ _).mp hm
    obtain ⟨rfl, -⟩ := hw.entry hlen hget hpre hdec
    simp [Enlisted, NodeState.member, hget, hdec, Except.toOption]

/-- A check of a membership looks at the id and the key of the group. -/
theorem verifyMembership_congr {g g' : Group} (hid : g.id = g'.id) (hpub : g.adminPub = g'.adminPub)
    (m : Member) : verifyMembership L g m = verifyMembership L g' m := by
  simp only [verifyMembership, admissionProof, inviteProof, verifyAdmission, hid, hpub]

variable (hC : L.cbor.Lawful) (hlen : g₀.id.length = 2 * publicKeySize)
  (hname : validUTF8 (foundings g₀.id).name = true)

include hC hlen hname

/-- An operation of a sync, while the others go on. -/
theorem wp_syncing_op {α : Type} {o : NodeOp} {k : o.Ans → NodeM α} {Q : Except GoErr α → Overlay → Prop}
    (ho : Agreeable L foundings (Vouched L g₀ pid) (j, .syncs) o) (hw : Awaits L foundings g₀ pid i j w)
    (hk : ∀ v r w', Awaits L foundings g₀ pid i j v → Grown L g₀ pid w v →
      (gossip L foundings g₀ pid nbr).exec (j, .syncs) v o r w' → Awaits L foundings g₀ pid i j w' →
      Grown L g₀ pid w w' → wp (syncingEnv L foundings g₀ pid j nbr) (k r) Q w') :
    wp (syncingEnv L foundings g₀ pid j nbr) (.op (S := NodeSig) o k) Q w := by
  have hkeeps : ∀ v r w', Accord L foundings (Vouched L g₀ pid) v →
      (gossip L foundings g₀ pid nbr).exec (j, .syncs) v o r w' →
      Accord L foundings (Vouched L g₀ pid) w' ∧ Grown L g₀ pid v w' :=
    fun v r w' hv hs => ⟨ho.keeps hC vouched_norm hv hs.2, grown_of_exec hC hlen hname ho.storing hs⟩
  constructor
  · intro v _ r w' hs hv
    exact hkeeps v r w' hv hs
  · rintro r w' ⟨v, hwv, hs⟩
    obtain ⟨hv, hgrown⟩ := hwv hw.agreed
    obtain ⟨hw', hgrown'⟩ := hkeeps v r w' hv hs
    exact hk v r w' (hw.grown hv hgrown) hgrown hs (hw.grown hw' (hgrown.trans hgrown'))
      (hgrown.trans hgrown')

/-- One entry that is offered: if it is one of the peer, the node has one afterwards. -/
theorem wp_syncMember_round (hrec : Rightful foundings j g) (hsame : g.id = g₀.id → g.adminPub = g₀.adminPub)
    (hself : j ≠ pid) {m : Member} (hgood : Vouched L g₀ pid g.id m) {st : List Bytes × ℕ}
    (hw : Awaits L foundings g₀ pid i j w) (hknows : Knows L g₀ pid j g st.1 w) :
    wp (syncingEnv L foundings g₀ pid j nbr) (syncMember L j g st m)
      (returns fun st' w' => Awaits L foundings g₀ pid i j w' ∧ Knows L g₀ pid j g st'.1 w' ∧
        (Enlisted L g₀ pid w j ∨ g.id = g₀.id ∧ m.peerID = pid → Enlisted L g₀ pid w' j)) w := by
  have hlong : 12 ≤ g.id.length := by
    rw [hrec.founded.length_id]
    decide
  obtain ⟨b, hb⟩ := exists_verifyMembership (L := L) ⟨hlong, hrec.founded.length_pub⟩ m
  unfold syncMember
  rw [hb, orPanic_some]
  simp only [ret_bind, slice12_of_le hlong]
  split_ifs with hknown hrefused
  · -- The entry of the node itself is not one of the peer.
    refine ⟨hw, hknows, ?_⟩
    rintro (hlisted | ⟨hid, rfl⟩)
    · exact hlisted
    · exact hknows hid (hknown.resolve_right hself.symm)
  · refine ⟨hw, hknows, ?_⟩
    rintro (hlisted | ⟨hid, hpid⟩)
    · exact hlisted
    · -- Under the key of the group the entry of the peer is not refused.
      rw [verifyMembership_congr hid (hsame hid), (hgood hid hpid).2.2] at hb
      simp [← Option.some.inj hb] at hrefused
  · have hput : Agreeable L foundings (Vouched L g₀ pid) (j, .syncs)
        (.storePut (memberKey g.id m.peerID) (L.cbor.member.marshal m)) :=
      ⟨.inr ⟨g.id, m, hrec.founded.length_id, rfl, rfl, hgood⟩, by simp⟩
    rw [wp_bind, wp_attempt]
    refine wp_syncing_op hC hlen hname hput hw fun v r w' _ _ hs hw' hgrown => ?_
    obtain ⟨hok, -, s', hstep, hset⟩ := hs
    obtain rfl : r = .ok () := hok rfl
    obtain rfl : s' = (v.node j).putKey (memberKey g.id m.peerID) (L.cbor.member.marshal m) := by
      rcases hstep with ⟨-, hs'⟩ | ⟨⟨e, he⟩, -⟩
      · exact hs'
      · exact absurd he (by simp)
    have hput : g.id = g₀.id → m.peerID = pid → Enlisted L g₀ pid w' j := by
      intro hid hpid
      rw [hset, Enlisted, Overlay.node_set_self, ← hid, ← hpid,
        NodeState.member_putKey hC _ _ m (hgood hid hpid).1]
      simp
    refine ⟨hw', ?_, ?_⟩
    · intro hid hmem
      rcases List.mem_cons.mp hmem with hpid | hmem
      · exact hput hid hpid.symm
      · exact (hknows.grown hgrown) hid hmem
    · rintro (hlisted | ⟨hid, hpid⟩)
      · exact hgrown.listed j hlisted
      · exact hput hid hpid

/-- What a peer offers: if it is the node that has heard, the node hears. -/
theorem wp_syncPeer_round (hrec : Rightful foundings j g) (hsame : g.id = g₀.id → g.adminPub = g₀.adminPub)
    (hself : j ≠ pid) (hnbr : nbr j i) {st : List Bytes × ℕ} (hw : Awaits L foundings g₀ pid i j w)
    (hknows : Knows L g₀ pid j g st.1 w) (x : Bytes) :
    wp (syncingEnv L foundings g₀ pid j nbr) (syncPeer L j g st x)
      (returns fun st' w' => Awaits L foundings g₀ pid i j w' ∧ Knows L g₀ pid j g st'.1 w' ∧
        (Enlisted L g₀ pid w j ∨ g.id = g₀.id ∧ x = i → Enlisted L g₀ pid w' j)) w := by
  have hsend : Agreeable L foundings (Vouched L g₀ pid) (j, .syncs) (.sendMembers x ⟨g.id⟩) :=
    Inert.agreeable (o := .sendMembers x ⟨g.id⟩) trivial
  rw [syncPeer_eq]
  refine wp_syncing_op hC hlen hname hsend hw fun v r w' hv _ hs hw' hgrown => ?_
  obtain ⟨hsteady, -, rfl, hr⟩ := hs
  -- If the answer is that of the node that has heard, an entry of the peer is in it.
  have hoffer : g.id = g₀.id → x = i → ∃ resp, r = .ok resp ∧ resp.error = [] ∧
      ∃ m ∈ resp.members, m.peerID = pid := by
    rintro hid rfl
    have hgroup : (w'.node x).group L g.id ≠ none := by
      rw [hid]
      exact hv.source
    refine ⟨_, hsteady rfl hnbr hgroup, rfl, ?_⟩
    rw [hid]
    exact (enlisted_iff hlen hv.agreed).mp hv.listed
  have hstay : ∀ hno : ¬ (g.id = g₀.id ∧ x = i), Awaits L foundings g₀ pid i j w' ∧
      Knows L g₀ pid j g st.1 w' ∧
      (Enlisted L g₀ pid w j ∨ g.id = g₀.id ∧ x = i → Enlisted L g₀ pid w' j) := by
    intro hno
    refine ⟨hw', hknows.grown hgrown, ?_⟩
    rintro (hlisted | hhit)
    · exact hgrown.listed j hlisted
    · exact absurd hhit hno
  rcases hr with ⟨e, rfl⟩ | ⟨resp, hserved, rfl⟩
  · refine hstay ?_
    rintro ⟨hid, hx⟩
    obtain ⟨resp, he, -⟩ := hoffer hid hx
    exact absurd he (by simp)
  simp only [takeMembers]
  split_ifs with herr
  · -- The entries are taken one by one: the peer is known, or its entry is still to come.
    refine wp_foldlM (fun rest st' u => rest ⊆ resp.members ∧ Awaits L foundings g₀ pid i j u ∧
      Knows L g₀ pid j g st'.1 u ∧ (Enlisted L g₀ pid w j ∨ g.id = g₀.id ∧ x = i →
        Enlisted L g₀ pid u j ∨ g.id = g₀.id ∧ ∃ m ∈ rest, m.peerID = pid)) ?_ ?_ resp.members st w' ?_
    · rintro st' u ⟨-, hu, hknows', hhit⟩
      refine ⟨hu, hknows', fun h => ?_⟩
      rcases hhit h with hlisted | ⟨-, m, hm, -⟩
      · exact hlisted
      · exact absurd hm (by simp)
    · rintro m rest st' u ⟨hrest, hu, hknows', hhit⟩
      have hgood : Vouched L g₀ pid g.id m :=
        hv.agreed.served hrec.founded.length_id hserved m (hrest List.mem_cons_self)
      refine wp_mono (wp_syncMember_round hC hlen hname hrec hsame hself hgood hu hknows') ?_
      rintro (e | st'') u' hu'
      · exact hu'.elim
      · obtain ⟨hu', hknows'', hlisted⟩ := hu'
        refine ⟨fun m' hm' => hrest (List.mem_cons_of_mem _ hm'), hu', hknows'', fun h => ?_⟩
        rcases hhit h with hbefore | ⟨hid, m', hm', hpid⟩
        · exact .inl (hlisted (.inl hbefore))
        · rcases List.mem_cons.mp hm' with rfl | hm'
          · exact .inl (hlisted (.inr ⟨hid, hpid⟩))
          · exact .inr ⟨hid, m', hm', hpid⟩
    · refine ⟨List.Subset.refl _, hw', hknows.grown hgrown, ?_⟩
      rintro (hlisted | ⟨hid, hx⟩)
      · exact .inl (hgrown.listed j hlisted)
      · obtain ⟨resp', heq, -, hmem⟩ := hoffer hid hx
        rw [← Except.ok.inj heq] at hmem
        exact .inr ⟨hid, hmem⟩
  · refine hstay ?_
    rintro ⟨hid, hx⟩
    obtain ⟨resp', heq, hnil, -⟩ := hoffer hid hx
    rw [← Except.ok.inj heq] at hnil
    exact absurd hnil herr

/-- The sync of one group. After that of the group in question, the node has heard. -/
theorem wp_syncGroup_round (hrec : Rightful foundings j g) (hsame : g.id = g₀.id → g.adminPub = g₀.adminPub)
    (hself : j ≠ pid) (hnbr : nbr j i) {connected : List Bytes} (hconnected : i ∈ connected)
    (hw : Awaits L foundings g₀ pid i j w) :
    wp (syncingEnv L foundings g₀ pid j nbr) (syncGroup L j connected g)
      (returns fun _ w' => Awaits L foundings g₀ pid i j w' ∧
        (Enlisted L g₀ pid w j ∨ g.id = g₀.id → Enlisted L g₀ pid w' j)) w := by
  have hlong : 12 ≤ g.id.length := by
    rw [hrec.founded.length_id]
    decide
  have hread : Agreeable L foundings (Vouched L g₀ pid) (j, .syncs) (.storeIterate (memberPrefix g.id)) :=
    Inert.agreeable (o := .storeIterate (memberPrefix g.id)) trivial
  rw [syncGroup_eq]
  refine wp_syncing_op hC hlen hname hread hw fun v r w' hv _ hs hw' hgrown => ?_
  obtain ⟨hsteady, -, s', hstep, rfl⟩ := hs
  obtain ⟨pairs, err⟩ := r
  obtain rfl : err = none := hsteady rfl
  obtain rfl : s' = v.node j := hstep.1
  obtain rfl := NodeState.scan_of_step hstep
  rw [Overlay.set_node] at hw' hgrown ⊢
  -- The peers that are taken for known are those of the table.
  have hknows : Knows L g₀ pid j g ((v.node j).members L g.id |>.map Member.peerID) v := by
    intro hid hmem
    rw [hid] at hmem
    obtain ⟨m, hm, hpid⟩ := List.mem_map.mp hmem
    exact (enlisted_iff hlen hv.agreed).mpr ⟨m, hm, hpid⟩
  unfold syncKnown
  refine wp_bind_returns (P := fun _ u => Awaits L foundings g₀ pid i j u ∧
    (Enlisted L g₀ pid w j ∨ g.id = g₀.id → Enlisted L g₀ pid u j)) ?_ ?_
  · refine wp_foldlM (fun rest st u => Awaits L foundings g₀ pid i j u ∧ Knows L g₀ pid j g st.1 u ∧
      (Enlisted L g₀ pid w j ∨ g.id = g₀.id → Enlisted L g₀ pid u j ∨ g.id = g₀.id ∧ i ∈ rest))
        ?_ ?_ connected _ v ?_
    · rintro st u ⟨hu, -, hhit⟩
      refine ⟨hu, fun h => ?_⟩
      rcases hhit h with hlisted | ⟨-, hmem⟩
      · exact hlisted
      · exact absurd hmem (by simp)
    · rintro x rest st u ⟨hu, hknows', hhit⟩
      refine wp_mono (wp_syncPeer_round hC hlen hname hrec hsame hself hnbr hu hknows' x) ?_
      rintro (e | st') u' hu'
      · exact hu'.elim
      · obtain ⟨hu', hknows'', hlisted⟩ := hu'
        refine ⟨hu', hknows'', fun h => ?_⟩
        rcases hhit h with hbefore | ⟨hid, hmem⟩
        · exact .inl (hlisted (.inl hbefore))
        · rcases List.mem_cons.mp hmem with rfl | hmem
          · exact .inl (hlisted (.inr ⟨hid, rfl⟩))
          · exact .inr ⟨hid, hmem⟩
    · refine ⟨hw', hknows, ?_⟩
      rintro (hlisted | hid)
      · exact .inl (hgrown.listed j hlisted)
      · exact .inr ⟨hid, hconnected⟩
  · rintro st u hu
    rw [slice12_of_le hlong]
    split_ifs
    · exact hu
    · exact hu

/-- A sync of the members that goes through: the node has heard of the peer. -/
theorem wp_syncGroupMembers_round (hpub : g₀.id = hexEncode g₀.adminPub) (hself : j ≠ pid) (hnbr : nbr j i)
    (hw : Awaits L foundings g₀ pid i j w) :
    wp (syncingEnv L foundings g₀ pid j nbr) (syncGroupMembers L j)
      (returns fun _ w' => Accord L foundings (Vouched L g₀ pid) w' ∧ Enlisted L g₀ pid w' j) w := by
  have hread : Agreeable L foundings (Vouched L g₀ pid) (j, .syncs) (.storeIterate (lit "group/")) :=
    Inert.agreeable (o := .storeIterate (lit "group/")) trivial
  refine wp_syncing_op hC hlen hname hread hw fun v r w' hv _ hs hw' _ => ?_
  obtain ⟨hsteady, -, s', hstep, -⟩ := hs
  obtain ⟨pairs, err⟩ := r
  obtain rfl : err = none := hsteady rfl
  obtain rfl := NodeState.scan_of_step hstep
  have hrec : ∀ g ∈ (v.node j).groups L, Rightful foundings j g := fun g hg => hv.agreed.recorded hg
  obtain ⟨g, hg, hid⟩ : ∃ g ∈ (v.node j).groups L, g.id = g₀.id := by
    obtain ⟨g, hg⟩ := Option.ne_none_iff_exists'.mp hv.own
    obtain ⟨raw, hget, hdec⟩ := NodeState.group_eq_some.mp hg
    refine ⟨g, NodeState.mem_groups hg, ?_⟩
    exact (groupKey_inj (hv.agreed.group j _ raw g (List.prefix_append _ _) hget hdec).1).symm
  change wp _ (Prog.op (S := NodeSig) .connected _) _ _
  refine wp_syncing_op hC hlen hname (Inert.agreeable (o := .connected) trivial) hw'
    fun v' connected u _ _ hs hu _ => ?_
  obtain ⟨hall, -⟩ := hs
  have hmem : i ∈ connected := hall rfl i hnbr
  simp only [ret_bind, bind_eq]
  rw [if_neg (List.ne_nil_of_mem hmem)]
  -- The groups are synced one by one: the node has heard, or the group is still to come.
  refine wp_foldlM (fun rest _ u => rest ⊆ (v.node j).groups L ∧ Awaits L foundings g₀ pid i j u ∧
    (Enlisted L g₀ pid u j ∨ ∃ g ∈ rest, g.id = g₀.id)) ?_ ?_ ((v.node j).groups L) () u ?_
  · rintro _ u ⟨-, hu, hlisted | ⟨g, hg, -⟩⟩
    · exact ⟨hu.agreed, hlisted⟩
    · exact absurd hg (by simp)
  · rintro g rest _ u ⟨hrest, hu, hhit⟩
    have hg := hrec g (hrest List.mem_cons_self)
    have hsame : g.id = g₀.id → g.adminPub = g₀.adminPub := by
      intro hid
      apply hexEncode_inj
      rw [← hg.founded.id_eq, ← hpub, hid]
    refine wp_mono (wp_syncGroup_round hC hlen hname hg hsame hself hnbr hmem hu) ?_
    rintro (e | _) u' hu'
    · exact hu'.elim
    · obtain ⟨hu', hlisted⟩ := hu'
      refine ⟨fun x hx => hrest (List.mem_cons_of_mem _ hx), hu', ?_⟩
      rcases hhit with hbefore | ⟨g', hg', hid'⟩
      · exact .inl (hlisted (.inl hbefore))
      · rcases List.mem_cons.mp hg' with rfl | hg'
        · exact .inl (hlisted (.inr hid'))
        · exact .inr ⟨g', hg', hid'⟩
  · exact ⟨List.Subset.refl _, hu, .inr ⟨g, hg, hid⟩⟩

end Sync

/-! ## Rounds -/

section Rounds

variable {L : Libs} {foundings : Bytes → Founding} {g₀ : Group} {pid : Bytes} {nbr : Bytes → Bytes → Prop}
  {w w' : Overlay}

/-- What a program has come to in a round that began in the world `w`: a sync has heard what a neighbour
knew. -/
def Heard (L : Libs) (foundings : Bytes → Founding) (g₀ : Group) (pid : Bytes) (nbr : Bytes → Bytes → Prop)
    (w : Overlay) (l : Place) (_ : Except GoErr Unit) (u : Overlay) : Prop :=
  Accord L foundings (Vouched L g₀ pid) u ∧
    (l.2 = .syncs → ∀ i, nbr l.1 i → Enlisted L g₀ pid w i → Enlisted L g₀ pid u l.1)

variable (hC : L.cbor.Lawful) (hlen : g₀.id.length = 2 * publicKeySize)
  (hname : validUTF8 (foundings g₀.id).name = true)

include hC hlen hname

/-- Every program that is started in a round keeps what there is, and a sync hears. -/
theorem OverlayTask.heard (hE : L.ed25519.Ideal) (hpub : g₀.id = hexEncode g₀.adminPub)
    (hself : ∀ j i, nbr j i → j ≠ pid) {u : Overlay} (hu : Accord L foundings (Vouched L g₀ pid) u)
    (hgrown : Grown L g₀ pid w u)
    (hgroup : ∀ j i, nbr j i → (w.node j).group L g₀.id ≠ none ∧ (w.node i).group L g₀.id ≠ none) {l : Place}
    {p : NodeM Unit} (hp : OverlayTask L foundings (Vouched L g₀ pid) l p) :
    wp ((gossip L foundings g₀ pid nbr).under (Onward L foundings g₀ pid) l) p
      (Heard L foundings g₀ pid nbr w l) u := by
  have hkeeps : wp ((gossip L foundings g₀ pid nbr).under (Onward L foundings g₀ pid) l) p
      (fun _ u' => Accord L foundings (Vouched L g₀ pid) u') u :=
    wp_onward hC hlen hname (OverlayTask.agreed hC vouched_norm hE hp u) hu
  by_cases hhears : l.2 = .syncs ∧ ∃ i, nbr l.1 i ∧ Enlisted L g₀ pid w i
  · obtain ⟨hsyncs, i, hnbr, hi⟩ := hhears
    cases hp with
    | sync n =>
      have hawaits : Awaits L foundings g₀ pid i n u :=
        ⟨hu, hgrown.listed i hi, hgrown.group i (hgroup n i hnbr).2, hgrown.group n (hgroup n i hnbr).1⟩
      refine wp_mono (wp_syncGroupMembers_round hC hlen hname hpub (hself n i hnbr) hnbr hawaits) ?_
      rintro (e | _) u' hu'
      · exact hu'.elim
      · exact ⟨hu'.1, fun _ _ _ _ => hu'.2⟩
    | _ => exact absurd hsyncs (by simp)
  · refine wp_mono hkeeps fun _ u' hu' => ⟨hu', fun hsyncs i hnbr hi => ?_⟩
    exact absurd ⟨hsyncs, i, hnbr, hi⟩ hhears

/-- In a round the nodes keep what they have, and each hears what its neighbours knew before. -/
theorem round_spreads (hE : L.ed25519.Ideal) (hpub : g₀.id = hexEncode g₀.adminPub)
    (hself : ∀ j i, nbr j i → j ≠ pid) {ps new old : List (Place × NodeM Unit)}
    (hw : Accord L foundings (Vouched L g₀ pid) w)
    (hgroup : ∀ j i, nbr j i → (w.node j).group L g₀.id ≠ none ∧ (w.node i).group L g₀.id ≠ none)
    (hps : ∀ np ∈ ps, wp ((gossip L foundings g₀ pid nbr).under (Onward L foundings g₀ pid) np.1) np.2
      (fun _ _ => True) w)
    (h : (gossip L foundings g₀ pid nbr).From w ps w' new old) (hall : AllSync nbr new) :
    Accord L foundings (Vouched L g₀ pid) w' ∧ Grown L g₀ pid w w' ∧
      (∀ np ∈ new ++ old, wp ((gossip L foundings g₀ pid nbr).under (Onward L foundings g₀ pid) np.1) np.2
        (fun _ _ => True) w') ∧
      ∀ i j, nbr j i → Enlisted L g₀ pid w i → Enlisted L g₀ pid w' j := by
  have hlasts : ∀ l x u v, Heard L foundings g₀ pid nbr w l x u → Onward L foundings g₀ pid u v →
      Heard L foundings g₀ pid nbr w l x v := by
    rintro l x u v ⟨hu, hheard⟩ huv
    obtain ⟨hv, hgrown⟩ := huv hu
    exact ⟨hv, fun hsyncs i hnbr hi => hgrown.listed _ (hheard hsyncs i hnbr hi)⟩
  have hdrift : ∀ u v, Onward L foundings g₀ pid w u → (gossip L foundings g₀ pid nbr).drift u v →
      Onward L foundings g₀ pid u v := by
    intro u v _ hd hu
    have hother : (overlay L foundings (Vouched L g₀ pid)).drift u v := hd
    exact ⟨hu.drift hother, grown_of_drift hother⟩
  obtain ⟨honward, hnew, hold⟩ := h.guarantee onward_refl onward_trans hlasts hdrift hps (by
    intro l p u hwu hp
    obtain ⟨hu, hgrown⟩ := hwu hw
    exact OverlayTask.heard hC hlen hname hE hpub hself hu hgrown hgroup hp)
  obtain ⟨hw', hgrown⟩ := honward hw
  refine ⟨hw', hgrown, fun np hnp => ?_, fun i j hnbr hi => ?_⟩
  · rcases List.mem_append.mp hnp with hnp | hnp
    · exact wp_mono (hnew np hnp) fun _ _ _ => trivial
    · exact hold np hnp
  · exact (hnew _ (hall j i hnbr)).2 rfl i hnbr hi

omit hC hlen hname

/-- Where the nodes agree and the entries of a peer have their proofs, they agree with it. -/
theorem Accord.vouched {Asked : Bytes → Bytes → Prop} (h : Accord L foundings (Asking Asked) w)
    (hentries : ∀ n, ∀ m ∈ (w.node n).members L g₀.id, Vouched L g₀ pid g₀.id m)
    (hanswers : ∀ x ∈ w.answers, ∀ m ∈ x.2.2.2.members, Vouched L g₀ pid x.2.2.2.groupID m) :
    Accord L foundings (Vouched L g₀ pid) w where
  group := h.group
  member n key raw m hpre hget hdec := by
    obtain ⟨gid, hlen, rfl, -⟩ := h.member n key raw m hpre hget hdec
    refine ⟨gid, hlen, rfl, ?_⟩
    rintro rfl hpid
    have hmem : m ∈ (w.node n).members L g₀.id :=
      (NodeState.mem_members_iff _ _ _).mpr ⟨_, raw, hget, List.prefix_append _ _, hdec⟩
    exact hentries n m hmem rfl hpid
  answered n q req resp hmem hok := by
    have htrue := h.answered n q req resp hmem hok
    exact ⟨htrue.invited, htrue.founded, hanswers _ hmem⟩

/-- The nodes have run together in any way, and each entry that any of them has of a peer in a group has a
proof of admission. In each of `d` rounds every node that has neighbours starts and finishes a sync in which
they answer, while anything else goes on, but the peer does not join again. Then a node within `d` steps of
one that had the peer in its member table has it in its own. -/
theorem members_spread (hC : L.cbor.Lawful) (hS : L.cbor.Strict) (hE : L.ed25519.Ideal)
    {Asked : Bytes → Bytes → Prop} {ps ps' : List (Place × NodeM Unit)}
    (hreach : (overlay L foundings (Asking Asked)).Reach .fresh w ps) {n : Bytes}
    (hg : g₀ ∈ (w.node n).groups L)
    (hentries : ∀ n, ∀ m ∈ (w.node n).members L g₀.id, Vouched L g₀ pid g₀.id m)
    (hanswers : ∀ x ∈ w.answers, ∀ m ∈ x.2.2.2.members, Vouched L g₀ pid x.2.2.2.groupID m)
    (hgroup : ∀ j i, nbr j i → (w.node j).group L g₀.id ≠ none ∧ (w.node i).group L g₀.id ≠ none)
    (hself : ∀ j i, nbr j i → j ≠ pid) {d : ℕ}
    (hrounds : (gossip L foundings g₀ pid nbr).Rounds (AllSync nbr) w [] d w' ps') {i j : Bytes}
    (hij : Within nbr i d j) (hi : pid ∈ (w.node i).memberIDs L g₀.id) :
    pid ∈ (w'.node j).memberIDs L g₀.id := by
  have hagreed := accord_of_reach hC (fun _ _ hasked => hasked) hE hreach
  have hfounded := (hagreed.recorded hg).founded
  have hlen := hfounded.length_id
  have hname : validUTF8 (foundings g₀.id).name = true := by
    obtain ⟨x, -, hdec⟩ := mem_decodeValues.mp hg
    have hvalid := hS.group hdec
    rw [Group.validText, Bool.and_eq_true, hfounded.name_eq] at hvalid
    exact hvalid.2
  let I (u : Overlay) (qs : List (Place × NodeM Unit)) : Prop :=
    Accord L foundings (Vouched L g₀ pid) u ∧ Grown L g₀ pid w u ∧
      ∀ np ∈ qs, wp ((gossip L foundings g₀ pid nbr).under (Onward L foundings g₀ pid) np.1) np.2
        (fun _ _ => True) u
  have hI : I w [] := ⟨hagreed.vouched hentries hanswers, .refl w, by simp⟩
  obtain ⟨⟨hw', -⟩, hspread⟩ := hrounds.spread I (Enlisted L g₀ pid) (by
    rintro u qs u' new old ⟨hu, hgrown, hqs⟩ hround hall
    obtain ⟨hu', hgrown', hqs', hheard⟩ := round_spreads hC hlen hname hE hfounded.id_eq hself hu
      (fun j i hnbr => ⟨hgrown.group j (hgroup j i hnbr).1, hgrown.group i (hgroup j i hnbr).2⟩)
        hqs hround hall
    exact ⟨⟨hu', hgrown.trans hgrown', hqs'⟩, hgrown'.listed, hheard⟩) hI
  have hknown := (enlisted_iff hlen (hagreed.vouched hentries hanswers)).mpr (mem_memberIDs.mp hi)
  exact mem_memberIDs.mpr ((enlisted_iff hlen hw').mp (hspread i j hij hknown))

end Rounds

/-! ## A sync can go through -/

section Finishes

variable {L : Libs} {foundings : Bytes → Founding} {g₀ g : Group} {pid j : Bytes} {nbr : Bytes → Bytes → Prop}
  {w : Overlay}

/-- A node that has a group can answer with its members. -/
theorem membersServed_of_group {s : NodeState} {gid : Bytes} (hne : gid ≠ []) (hg : s.group L gid = some g) :
    MembersServed L s ⟨gid⟩ { groupID := gid, members := s.members L gid } := by
  obtain ⟨raw, hload⟩ := steps_loadByID hg
  let list : NodeEvent := ⟨.storeIterate (memberPrefix gid), (s.scan (memberPrefix gid), none)⟩
  have hlist : Steps nodeEnv s (listMembers L gid) [list] s (ret (s.members L gid, none)) :=
    .op ⟨rfl, .inl rfl⟩ (.refl _ _)
  have hreply : Steps nodeEnv s (replyMembers { groupID := gid, members := s.members L gid })
      [⟨.replyMembers { groupID := gid, members := s.members L gid }, .ok ()⟩] s (ret ()) :=
        .op rfl (.refl _ _)
  have hserve : Steps nodeEnv s (handleMembers L (.ok ⟨gid⟩))
      ([⟨.storeGet (groupKey gid), .ok raw⟩] ++ ([list] ++
        [⟨.replyMembers { groupID := gid, members := s.members L gid }, .ok ()⟩])) s (ret ()) := by
    simp only [handleMembers]
    rw [if_neg hne]
    exact hload.attempt.bind (hlist.bind hreply)
  exact ⟨_, s, hserve, by simp⟩

variable (L foundings g₀ pid nbr j) in
/-- A sync that runs alone. -/
abbrev soleSync : Env NodeSig Overlay := (gossip L foundings g₀ pid nbr).alone (j, .syncs)

/-- Taking an entry ends. -/
theorem finishes_syncMember (husable : g.Usable) (st : List Bytes × ℕ) (m : Member) :
    Finishes (soleSync L foundings g₀ pid j nbr) (syncMember L j g st m) := by
  obtain ⟨b, hb⟩ := exists_verifyMembership (L := L) husable m
  unfold syncMember
  rw [hb, orPanic_some]
  simp only [ret_bind, slice12_of_le husable.1]
  split_ifs
  · exact finishes_ret st
  · exact finishes_ret st
  · refine finishes_op fun w => ⟨.ok (), w.set j ((w.node j).putKey (memberKey g.id m.peerID)
      (L.cbor.member.marshal m)), ⟨fun _ => rfl, fun hpre => ?_, _, .inl ⟨rfl, rfl⟩, rfl⟩, ?_⟩
    · exact absurd hpre (not_prefix_memberKey _ _)
    · exact finishes_ret _

/-- Asking a peer ends. -/
theorem finishes_syncPeer (husable : g.Usable) (st : List Bytes × ℕ) (x : Bytes) :
    Finishes (soleSync L foundings g₀ pid j nbr) (syncPeer L j g st x) := by
  rw [syncPeer_eq]
  refine finishes_op fun w => ?_
  cases hg : (w.node x).group L g.id with
  | none =>
    refine ⟨.error .eof, w, ⟨fun _ _ hsome => absurd hg hsome, trivial, rfl, .inl ⟨_, rfl⟩⟩, ?_⟩
    exact finishes_ret st
  | some g' =>
    have hne : g.id ≠ [] := by
      intro hnil
      have hlong := husable.1
      rw [hnil] at hlong
      exact absurd hlong (by decide)
    refine ⟨.ok { groupID := g.id, members := (w.node x).members L g.id }, w, ⟨fun _ _ _ => rfl, trivial, rfl,
      .inr ⟨_, membersServed_of_group hne hg, rfl⟩⟩, ?_⟩
    simp only [takeMembers, if_true]
    exact finishes_foldlM (fun st m _ => finishes_syncMember husable st m) st

/-- Wherever the nodes agree, a sync can go through. -/
theorem exists_sync (hw : Accord L foundings (Vouched L g₀ pid) w) {connected : List Bytes}
    (hne : connected ≠ []) (hconnected : ∀ i, nbr j i → i ∈ connected) :
    ∃ evs w', Steps (soleSync L foundings g₀ pid j nbr) w (syncGroupMembers L j) evs w' (ret ()) := by
  have husable : ∀ g ∈ (w.node j).groups L, g.Usable := by
    intro g hg
    have hrec := hw.recorded hg
    refine ⟨?_, hrec.founded.length_pub⟩
    rw [hrec.founded.length_id]
    decide
  have hlocal : ∀ (o : NodeOp) (r : o.Ans), (w.node j).step o r (w.node j) →
      ∃ s', (w.node j).step o r s' ∧ w = w.set j s' := fun o r hs => ⟨_, hs, by simp⟩
  have hgroups : Finishes (soleSync L foundings g₀ pid j nbr)
      (((w.node j).groups L).foldlM (fun _ g => syncGroup L j connected g) ()) := by
    refine finishes_foldlM (fun _ g hg => ?_) ()
    rw [syncGroup_eq]
    refine finishes_op fun v => ⟨((v.node j).scan (memberPrefix g.id), none), v, ⟨fun _ => rfl, trivial,
      v.node j, ⟨rfl, .inl rfl⟩, by simp⟩, ?_⟩
    refine finishes_bind (finishes_foldlM (fun st x _ => finishes_syncPeer (husable g hg) st x) _)
      fun st => ?_
    rw [slice12_of_le (husable g hg).1]
    split_ifs
    · exact finishes_ret ()
    · exact finishes_ret ()
  obtain ⟨evs, ⟨⟩, w', hrest⟩ := hgroups w
  refine ⟨⟨.storeIterate (lit "group/"), ((w.node j).scan (lit "group/"), none)⟩ ::
    ⟨.connected, connected⟩ :: evs, w',
    .op ⟨fun _ => rfl, trivial, hlocal _ _ ⟨rfl, .inl rfl⟩⟩
      (.op ⟨fun _ => hconnected, trivial, hlocal _ _ rfl⟩ ?_)⟩
  change Steps _ w (if connected = [] then ret () else _) _ _ _
  rw [if_neg hne]
  exact hrest

end Finishes

/-! ## A peer that joined elsewhere -/

section Sample

/-- The entry of a peer that has joined at a node other than the admin's. -/
def sampleCarol : Member :=
  joinedMember sampleLibs sampleReplica.norm (sampleInvite (sampleGroup 7) 7) sampleJoin (lit "carol") [] 0 []

/-- A peer has joined at a node other than the admin's. -/
def sampleTrio : Overlay :=
  (((Overlay.fresh.set (lit "alice") sampleAlice).answer (lit "alice")
    (lit "bob") sampleJoin sampleAnswer).set
    (lit "bob") (sampleBob.admitted sampleLibs sampleReplica.norm (sampleInvite (sampleGroup 7) 7) sampleJoin
      (lit "carol") [] 0 [])).answer (lit "bob") (lit "carol") sampleJoin
        (joinedResponse sampleReplica.norm 0 [] [])

/-- The sample network is reached. -/
theorem exists_sampleTrio : ∃ ps, sampleOverlay.Reach .fresh sampleTrio ps := by
  obtain ⟨ps, hpair⟩ := exists_samplePair
  have hinv : sampleJoin.invite = some (sampleInvite (sampleGroup 7) 7) := rfl
  obtain ⟨evs, hserves⟩ := steps_serves (lit "bob") (lit "carol") [] hinv group_samplePair_bob
    (by decide) (by decide)
    (selfSigned_sampleInvite _ 7)
    (show unix 0 ≤ (sampleInvite (sampleGroup 7) 7).expiresAt from show unix 0 ≤ 1000 by decide)
    (show admission sampleLibs sampleReplica.norm (lit "carol") 0 = .ok [] from rfl)
  exact ⟨_, hpair.run (.join (lit "bob") (lit "carol") [] fun _ _ _ m hm => .inr (.inr hm)) hserves⟩

/-- Its entry has a proof, by the invite. -/
theorem vouched_sampleCarol :
    Vouched sampleLibs (sampleGroup 7) (lit "carol") (sampleGroup 7).id sampleCarol.norm := by
  rintro - -
  have hnorm : sampleCarol.norm = sampleCarol := by
    have htime : wholeSeconds 0 = 0 := by decide
    simp [Member.norm, sampleCarol, joinedMember, htime]
  rw [hnorm]
  refine ⟨by decide, hnorm, verifyMembership_eq_true_iff.mpr
    (.inr ⟨rfl, inviteProof_eq_true_iff.mpr ⟨rfl, ?_⟩⟩)⟩
  exact carriesInvite_of_signed sampleCbor_lawful (sampleInvite (sampleGroup 7) 7) (by decide) rfl rfl rfl
    (sampleEd25519_ideal.verify_sign (sampleKey 7) (by decide) _)

/-- Every entry that there is of the peer has a proof. -/
theorem vouched_sampleTrio (n : Bytes) :
    ∀ m ∈ (sampleTrio.node n).members sampleLibs (sampleGroup 7).id,
      Vouched sampleLibs (sampleGroup 7) (lit "carol") (sampleGroup 7).id m := by
  intro m hm hid hpid
  obtain ⟨ps, hreach⟩ := exists_sampleTrio
  have hagreed := accord_of_reach sampleCbor_lawful (fun _ _ hasked => hasked) sampleEd25519_ideal hreach
  obtain ⟨key, raw, hget, hpre, hdec⟩ := (NodeState.mem_members_iff _ _ _).mp hm
  obtain ⟨rfl, -⟩ := hagreed.entry (by decide) hget hpre hdec
  rw [hpid] at hget
  by_cases hbob : n = lit "bob"
  · subst hbob
    have hraw : sampleLibs.cbor.member.marshal sampleCarol = raw :=
      Option.some.inj ((SortedMap.get_put_self _ _ _).symm.trans hget)
    rw [← hraw] at hdec
    have hlawful : sampleLibs.cbor.Lawful := sampleCbor_lawful
    obtain rfl := hlawful.member.eq_norm hdec
    exact vouched_sampleCarol rfl rfl
  by_cases halice : n = lit "alice"
  · -- The admin has a record of the group and an entry of another peer.
    subst halice
    have hnone : sampleAlice.store.get (memberKey (sampleGroup 7).id (lit "carol")) = none := by
      rw [sampleAlice, NodeState.admitted, NodeState.putKey, SortedMap.get_put_ne _ (by decide), sampleNode,
        NodeState.putKey, SortedMap.get_put_ne _ (groupKey_ne_memberKey _ _ _).symm]
      exact SortedMap.get_empty _
    exact absurd (hget.symm.trans hnone) (by simp)
  · have hfresh : sampleTrio.node n = .fresh := by
      simp [sampleTrio, Overlay.answer, Overlay.set, hbob, halice, Overlay.fresh]
    rw [hfresh] at hget
    exact absurd (hget.symm.trans (SortedMap.get_empty _)) (by simp)

/-- The admin asks the other node, whatever else the nodes are connected to. -/
def SampleAsks (j i : Bytes) : Prop := j = lit "alice" ∧ i = lit "bob"

/-- No answer lists a member. -/
theorem members_sampleTrio : ∀ x ∈ sampleTrio.answers, x.2.2.2.members = [] := by
  intro x hx
  rcases List.mem_cons.mp hx with rfl | hx
  · rfl
  · rw [List.mem_singleton.mp hx]
    rfl

/-- After one round the admin knows the peer that joined elsewhere. -/
theorem sampleTrio_spreads :
    ∃ ps w' ps', sampleOverlay.Reach .fresh sampleTrio ps ∧
      (gossip sampleLibs sampleFoundings (sampleGroup 7) (lit "carol") SampleAsks).Rounds (AllSync SampleAsks)
        sampleTrio [] 1 w' ps' ∧
      lit "carol" ∈ (sampleTrio.node (lit "bob")).memberIDs sampleLibs (sampleGroup 7).id ∧
      lit "carol" ∈ (w'.node (lit "alice")).memberIDs sampleLibs (sampleGroup 7).id := by
  obtain ⟨ps, hreach⟩ := exists_sampleTrio
  have hagreed := accord_of_reach sampleCbor_lawful (fun _ _ hasked => hasked) sampleEd25519_ideal hreach
  have hanswers : ∀ x ∈ sampleTrio.answers, ∀ m ∈ x.2.2.2.members,
      Vouched sampleLibs (sampleGroup 7) (lit "carol") x.2.2.2.groupID m := by
    intro x hx m hm
    rw [members_sampleTrio x hx] at hm
    exact absurd hm (by simp)
  have halice : sampleTrio.node (lit "alice") = samplePair.node (lit "alice") := rfl
  have hadmin : sampleGroup 7 ∈ (sampleTrio.node (lit "alice")).groups sampleLibs := by
    rw [halice]
    exact NodeState.mem_groups group_samplePair_alice
  have hgroup : ∀ j i, SampleAsks j i → (sampleTrio.node j).group sampleLibs (sampleGroup 7).id ≠ none ∧
      (sampleTrio.node i).group sampleLibs (sampleGroup 7).id ≠ none := by
    rintro j i ⟨rfl, rfl⟩
    have hbob : (sampleTrio.node (lit "bob")).group sampleLibs (sampleGroup 7).id = some sampleReplica.norm :=
      (NodeState.group_admitted ..).trans group_samplePair_bob
    rw [halice, group_samplePair_alice, hbob]
    exact ⟨by simp, by simp⟩
  have hcarol : lit "carol" ∈ (sampleTrio.node (lit "bob")).memberIDs sampleLibs (sampleGroup 7).id := by
    have hentry : (sampleTrio.node (lit "bob")).member sampleLibs (sampleGroup 7).id (lit "carol") =
        some sampleCarol.norm :=
      NodeState.member_putKey sampleCbor_lawful sampleBob (sampleGroup 7).id sampleCarol (by decide)
    exact mem_memberIDs.mpr ⟨_, mem_members_of_member hentry, rfl⟩
  -- The admin's sync runs to its end by itself.
  have hconnected : ∀ i, SampleAsks (lit "alice") i → i ∈ [lit "bob"] := by
    rintro i ⟨-, rfl⟩
    exact List.mem_cons_self
  obtain ⟨evs, w', hsync⟩ := exists_sync (hagreed.vouched vouched_sampleTrio hanswers) (by simp) hconnected
  have hround : (gossip sampleLibs sampleFoundings (sampleGroup 7) (lit "carol") SampleAsks).From
      sampleTrio [] w'
      [((lit "alice", .syncs), ret ())] [] := System.From.init.run (.sync (lit "alice")) hsync
  have hall : AllSync SampleAsks [((lit "alice", .syncs), ret ())] := by
    rintro j i ⟨rfl, -⟩
    exact List.mem_cons_self
  have hrounds := System.Rounds.succ .zero hround hall
  refine ⟨ps, w', _, hreach, hrounds, hcarol, ?_⟩
  exact members_spread sampleCbor_lawful sampleCbor_strict sampleEd25519_ideal hreach hadmin
    vouched_sampleTrio hanswers hgroup
    (by
      rintro j i ⟨rfl, -⟩
      decide) hrounds (.hop .here ⟨rfl, rfl⟩) hcarol

end Sample

end FnShare
