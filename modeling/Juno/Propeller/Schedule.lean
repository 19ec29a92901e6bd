import Juno.Propeller.Units
import Mathlib

/-!
# Who sends which shard

Every member of a committee but the publisher passes on one shard. A scheduler finds the member of a shard,
and the shard of its own member, by positions in the sorted list of peers, from which the publisher is left
out.

## The model

* `owner` — the member of a shard, in the list of the ids without that of the publisher.
* `Assigns` — the shards and the members that pass them on correspond one to one.

The main result is `shards_scheduled`.
-/

namespace Juno.Propeller

open List Scheduler

variable {Peer : Type} [LinearOrder Peer]

def committee (nodes : List (PeerCommittee Peer)) : List Peer := (sortPeers nodes).map fun p => p.id

/-- The member that passes a shard of a publisher on. -/
def owner (ids : List Peer) (publisher : Peer) (shardIndex : ℕ) : Except ValidateError Peer :=
  if ids.length - 1 ≤ shardIndex then .error .shardIndex
  else if publisher ∈ ids then (ids.erase publisher)[shardIndex]?.elim (.error .panic) .ok
  else .error .publisherNotFound

/-- The shards of a publisher and the other members correspond one to one. -/
structure Assigns (ids : List Peer) (publisher : Peer) (peerFor : ℕ → Except ValidateError Peer) : Prop where
  total : ∀ i < ids.length - 1, ∃ x ∈ ids, x ≠ publisher ∧ peerFor i = .ok x
  unique : ∀ x ∈ ids, x ≠ publisher → ∃! i, peerFor i = .ok x
  range : ∀ i x, peerFor i = .ok x → i < ids.length - 1

structure Scheduled (nodes : List (PeerCommittee Peer)) (s : Scheduler Peer) : Prop where
  two : 2 ≤ nodes.length
  peers : s.peers = sortPeers nodes
  member : ∃ i, searchPeer (sortPeers nodes) s.localPeerID = some i
  distinct : noDuplicates (sortPeers nodes) = true
  data : s.numDataShards = max 1 ((nodes.length - 1) / 3)
  coding : s.numCodingShards = nodes.length - 1 - s.numDataShards

theorem newScheduler_ok {id : Peer} {nodes : List (PeerCommittee Peer)} {s : Scheduler Peer}
    (h : newScheduler id nodes = .ok s) :
    Scheduled nodes s ∧ s.localPeerID = id ∧ searchPeer (sortPeers nodes) id = some s.localPeerIDIndex := by
  rw [newScheduler] at h
  by_cases htwo : nodes.length < 2
  · rw [if_pos htwo] at h
    cases h
  rw [if_neg htwo] at h
  cases hsearch : searchPeer (sortPeers nodes) id with
  | none =>
    rw [hsearch] at h
    cases h
  | some i =>
    rw [hsearch] at h
    simp only at h
    split_ifs at h with hdup
    cases h
    exact ⟨⟨Nat.le_of_not_lt htwo, rfl, ⟨i, hsearch⟩, hdup, rfl, rfl⟩, rfl, rfl⟩

variable {nodes nodes' : List (PeerCommittee Peer)} {s s' : Scheduler Peer} {publisher : Peer} {i : ℕ}

/-! ### The order of the ids -/

theorem searchPeer_eq (nodes : List (PeerCommittee Peer)) (x : Peer) :
    searchPeer (sortPeers nodes) x = if x ∈ committee nodes then some ((committee nodes).idxOf x)
      else none := by
  have hidx : (sortPeers nodes).findIdx (fun p => p.id == x) = (committee nodes).idxOf x := by
    rw [idxOf, committee, findIdx_map]
    rfl
  rw [searchPeer, findIdx?_eq_guard_findIdx_lt, hidx, Option.guard]
  refine ite_congr (propext ?_) (fun _ => rfl) fun _ => rfl
  rw [decide_eq_true_iff, ← idxOf_lt_length_iff, committee, length_map]

theorem committee_perm (nodes : List (PeerCommittee Peer)) :
    (committee nodes).Perm (nodes.map fun p => p.id) :=
  (perm_insertionSort _ nodes).map _

theorem length_committee (nodes : List (PeerCommittee Peer)) : (committee nodes).length = nodes.length := by
  rw [(committee_perm nodes).length_eq, length_map]

theorem pairwise_sortPeers (nodes : List (PeerCommittee Peer)) :
    (sortPeers nodes).Pairwise fun a b => a.id ≤ b.id :=
  @pairwise_insertionSort _ (fun a b : PeerCommittee Peer => a.id ≤ b.id) _ ⟨fun a b => le_total a.id b.id⟩
    ⟨fun _ _ _ => le_trans⟩ nodes

/-- The order in which the peers are given does not matter. -/
theorem committee_congr (h : (nodes'.map fun p => p.id).Perm (nodes.map fun p => p.id)) :
    committee nodes' = committee nodes := by
  have hsorted : ∀ nodes : List (PeerCommittee Peer), (committee nodes).Pairwise (· ≤ ·) := fun nodes =>
    pairwise_map.mpr (pairwise_sortPeers nodes)
  exact (((committee_perm nodes').trans h).trans (committee_perm nodes).symm).eq_of_pairwise'
    (hsorted nodes') (hsorted nodes)

/-- In a sorted list it is enough to compare neighbours. -/
theorem noDuplicates_iff {l : List (PeerCommittee Peer)} (hl : l.Pairwise fun a b => a.id ≤ b.id) :
    noDuplicates l = true ↔ (l.map fun p => p.id).Nodup := by
  induction l with
  | nil => simp [noDuplicates]
  | cons a l ih =>
    cases l with
    | nil => simp [noDuplicates]
    | cons b l =>
      obtain ⟨ha, hb⟩ := pairwise_cons.mp hl
      have hcons : noDuplicates (a :: b :: l) = (a.id != b.id && noDuplicates (b :: l)) := rfl
      rw [hcons, Bool.and_eq_true, bne_iff_ne, ih hb, @map_cons _ _ _ a, @nodup_cons _ a.id]
      refine and_congr ?_ Iff.rfl
      constructor
      · -- the first id is below the second, and that is below all others
        intro hne hmem
        obtain ⟨p, hp, heq⟩ := mem_map.mp hmem
        have hlt : a.id < b.id := lt_of_le_of_ne (ha b (by simp)) hne
        rcases mem_cons.mp hp with rfl | hp
        · exact hne heq.symm
        · exact absurd heq (hlt.trans_le ((pairwise_cons.mp hb).1 p hp)).ne'
      · intro hnot heq
        exact hnot (by simp [heq])

theorem Scheduled.nodup (h : Scheduled nodes s) : (committee nodes).Nodup :=
  (noDuplicates_iff (pairwise_sortPeers nodes)).mp h.distinct

/-! ### The map of the shards -/

theorem Scheduled.total (h : Scheduled nodes s) : s.numTotalShards = nodes.length - 1 := by
  have htwo := h.two
  rw [numTotalShards, h.coding, h.data]
  omega

/-- **The positions of the scheduler**: leaving the publisher out shifts those after it. -/
theorem Scheduled.peerForShardIndex_eq (h : Scheduled nodes s) (publisher : Peer) (i : ℕ) :
    s.peerForShardIndex publisher i = owner (committee nodes) publisher i := by
  rw [peerForShardIndex, owner, h.total, length_committee, h.peers, searchPeer_eq]
  refine ite_congr rfl (fun _ => rfl) fun _ => ?_
  by_cases hmem : publisher ∈ committee nodes
  · rw [if_pos hmem, if_pos hmem, erase_eq_eraseIdx_of_idxOf rfl, getElem?_eraseIdx]
    have hshift :
      (if i < (committee nodes).idxOf publisher then (committee nodes)[i]? else (committee nodes)[i + 1]?) =
        (committee nodes)[if (committee nodes).idxOf publisher ≤ i then i + 1 else i]? := by
      split_ifs <;> first | rfl | omega
    rw [hshift, committee, getElem?_map]
    simp only
    cases (sortPeers nodes)[if ((sortPeers nodes).map fun p => p.id).idxOf publisher ≤ i then i + 1 else i]?
      with
    | none => rfl
    | some p => rfl
  · rw [if_neg hmem, if_neg hmem]

section

variable {ids : List Peer} {x : Peer}

theorem owner_eq_ok :
    owner ids publisher i = .ok x ↔ publisher ∈ ids ∧ (ids.erase publisher)[i]? = some x := by
  rw [owner]
  split_ifs with hi hmem
  · refine iff_of_false (by simp) fun ⟨hmem, hx⟩ => ?_
    have hlt := (List.getElem?_eq_some_iff.mp hx).1
    rw [length_erase_of_mem hmem] at hlt
    omega
  · cases hx : (ids.erase publisher)[i]? with
    | none => simp
    | some y => simp [hmem]
  · simp [hmem]

theorem owner_ne_panic : owner ids publisher i ≠ .error .panic := by
  rw [owner]
  split_ifs with hi hmem
  · simp
  · have hlt : i < (ids.erase publisher).length := by
      rw [length_erase_of_mem hmem]
      omega
    rw [getElem?_eq_getElem hlt]
    simp
  · simp

theorem assigns_owner (hnodup : ids.Nodup) (hmem : publisher ∈ ids) :
    Assigns ids publisher (owner ids publisher) where
  total i hi := by
    rw [← length_erase_of_mem hmem] at hi
    obtain ⟨hne, hin⟩ := hnodup.mem_erase_iff.mp (getElem_mem hi)
    exact ⟨_, hin, hne, owner_eq_ok.mpr ⟨hmem, List.getElem?_eq_getElem hi⟩⟩
  unique x hx hne := by
    obtain ⟨i, hi⟩ := List.mem_iff_getElem?.mp (hnodup.mem_erase_iff.mpr ⟨hne, hx⟩)
    refine ⟨i, owner_eq_ok.mpr ⟨hmem, hi⟩, fun j hj => ?_⟩
    have hlt := (List.getElem?_eq_some_iff.mp hi).1
    exact ((List.getElem?_inj hlt (hnodup.erase publisher)).mp (hi.trans (owner_eq_ok.mp hj).2.symm)).symm
  range i x hx := by
    have hlt := (List.getElem?_eq_some_iff.mp (owner_eq_ok.mp hx).2).1
    rwa [List.length_erase_of_mem hmem] at hlt

end

/-- **The inverse**: the shard of the local member. -/
theorem Scheduled.shardIndexForPublisher_eq_ok (h : Scheduled nodes s)
    (hidx : searchPeer (sortPeers nodes) s.localPeerID = some s.localPeerIDIndex)
    (hfits : nodes.length ≤ 2 ^ 32) :
    s.shardIndexForPublisher publisher = .ok i ↔ s.peerForShardIndex publisher i = .ok s.localPeerID := by
  rw [h.peerForShardIndex_eq, owner_eq_ok, shardIndexForPublisher, h.peers, searchPeer_eq]
  rw [searchPeer_eq] at hidx
  split_ifs at hidx with hlocal
  have hk : (committee nodes).idxOf s.localPeerID = s.localPeerIDIndex := Option.some.inj hidx
  have hlt := idxOf_lt_length_iff.mpr hlocal
  rw [hk, length_committee] at hlt
  split_ifs with hself hmem
  · rw [hself]
    refine iff_of_false (by simp) fun hx => ?_
    exact h.nodup.not_mem_erase (mem_of_getElem? hx.2)
  · have hne : (committee nodes).idxOf publisher ≠ s.localPeerIDIndex := fun heq =>
      hself ((idxOf_inj hlocal).mp (hk.trans heq.symm))
    have hat : (committee nodes)[s.localPeerIDIndex]? = some s.localPeerID := by
      rw [← hk]
      exact getElem?_idxOf hlocal
    have hshard :
      ((committee nodes).erase publisher)[if (committee nodes).idxOf publisher ≤ s.localPeerIDIndex then
        s.localPeerIDIndex - 1 else s.localPeerIDIndex]? = some s.localPeerID := by
      rw [erase_eq_eraseIdx_of_idxOf rfl, getElem?_eraseIdx, ← hat]
      split_ifs with hle hlt' hlt'
      · omega
      · rw [Nat.sub_add_cancel (by omega)]
      · rfl
      · omega
    have hmod : (if (committee nodes).idxOf publisher ≤ s.localPeerIDIndex then s.localPeerIDIndex - 1
        else s.localPeerIDIndex) < 2 ^ 32 := by
      split_ifs <;> omega
    simp only [Nat.mod_eq_of_lt hmod, Except.ok.injEq, hmem, true_and]
    constructor
    · rintro rfl
      exact hshard
    · intro hx
      have hlt := (List.getElem?_eq_some_iff.mp hshard).1
      exact (getElem?_inj hlt (h.nodup.erase publisher)).mp (hshard.trans hx.symm)
  · simp [hmem]

/-! ### Origins -/

/-- The peer from which a member is to have a shard: the publisher sends a member its own shard, and the
member passes it on to the others. -/
def Scheduler.Designates (s : Scheduler Peer) (publisher : Peer) (shardIndex : ℕ) (sender : Peer) : Prop :=
  ∃ peer, s.peerForShardIndex publisher shardIndex = .ok peer ∧
    sender = if peer = s.localPeerID then publisher else peer

variable {sender : Peer}

theorem validateShardOrigin_eq_ok :
    s.validateShardOrigin sender publisher i = .ok () ↔ publisher ≠ s.localPeerID ∧
      (sender = publisher ∧ s.peerForShardIndex publisher i = .ok s.localPeerID ∨
        s.peerForShardIndex publisher i = .ok sender ∧ sender ≠ s.localPeerID) := by
  rw [validateShardOrigin]
  split_ifs with hsender hpub
  · refine iff_of_false (by simp) fun ⟨hpub, hor⟩ => hor.elim (fun h => hpub (h.1.symm.trans hsender))
      fun h => h.2 hsender
  · exact iff_of_false (by simp) fun h => h.1 hpub
  · cases s.peerForShardIndex publisher i with
    | error e => simp
    | ok x =>
      simp only [Except.ok.injEq, hpub, hsender, not_false_eq_true, ne_eq, true_and, and_true]
      split_ifs with hdirect hbroadcast
      · exact iff_of_true rfl (.inl hdirect.symm)
      · exact iff_of_true rfl (.inr hbroadcast)
      · exact iff_of_false (by simp) fun hor => hor.elim (fun h => hdirect h.symm) hbroadcast

theorem validateShardOrigin_designated (h : s.Designates publisher i sender)
    (hpub : publisher ≠ s.localPeerID) : s.validateShardOrigin sender publisher i = .ok () := by
  obtain ⟨peer, hpeer, rfl⟩ := h
  refine validateShardOrigin_eq_ok.mpr ⟨hpub, ?_⟩
  split_ifs with hlocal
  · exact .inl ⟨rfl, hlocal ▸ hpeer⟩
  · exact .inr ⟨hpeer, hlocal⟩

theorem Scheduled.validateShardOrigin_ne_panic (h : Scheduled nodes s) (sender : Peer) :
    s.validateShardOrigin sender publisher i ≠ .error .panic := by
  rw [validateShardOrigin, h.peerForShardIndex_eq]
  have hpanic := @owner_ne_panic _ _ publisher i (committee nodes)
  split_ifs
  · simp
  · simp
  · cases howner : owner (committee nodes) publisher i with
    | error e =>
      simp only [ne_eq, Except.error.injEq]
      rintro rfl
      exact hpanic howner
    | ok x =>
      simp only
      split_ifs <;> simp

/-! ### The schedule -/

theorem Scheduled.peerForShardIndex (h : Scheduled nodes s) {j : ℕ}
    (hpub : searchPeer (sortPeers nodes) publisher = some j) (hi : i < nodes.length - 1) :
    ∃ peer, s.peerForShardIndex publisher i = .ok peer := by
  have hmem : publisher ∈ committee nodes := by
    by_contra hmem
    rw [searchPeer_eq, if_neg hmem] at hpub
    cases hpub
  obtain ⟨x, -, -, hx⟩ := (assigns_owner h.nodup hmem).total i (by rwa [length_committee])
  exact ⟨x, (h.peerForShardIndex_eq publisher i).trans hx⟩

theorem newScheduler_of_mem (htwo : 2 ≤ nodes.length) (hnodup : (nodes.map fun p => p.id).Nodup) {x : Peer}
    (hx : x ∈ nodes.map fun p => p.id) : ∃ s, newScheduler x nodes = .ok s := by
  have hmem := (committee_perm nodes).mem_iff.mpr hx
  have hdistinct :=
    (noDuplicates_iff (pairwise_sortPeers nodes)).mpr ((committee_perm nodes).nodup_iff.mpr hnodup)
  rw [newScheduler, if_neg (Nat.not_lt.mpr htwo), searchPeer_eq, if_pos hmem]
  simp only [hdistinct, if_true]
  exact ⟨_, rfl⟩

theorem Scheduled.newScheduler (h : Scheduled nodes s) {p : PeerCommittee Peer} (hp : p ∈ nodes) :
    ∃ s', newScheduler p.id nodes = .ok s' :=
  newScheduler_of_mem h.two ((committee_perm nodes).nodup_iff.mp h.nodup) (mem_map_of_mem hp)

theorem Scheduled.other (h : Scheduled nodes s) (publisher : Peer) : ∃ p ∈ nodes, p.id ≠ publisher := by
  by_contra hnone
  push Not at hnone
  have hids : committee nodes = replicate nodes.length publisher := by
    refine eq_replicate_iff.mpr ⟨length_committee nodes, fun x hx => ?_⟩
    obtain ⟨p, hp, rfl⟩ := mem_map.mp ((committee_perm nodes).mem_iff.mp hx)
    exact hnone p hp
  have hnodup := h.nodup
  rw [hids, nodup_replicate] at hnodup
  exact absurd h.two (by omega)

/-- **Shards are scheduled.** Every member of a committee has a scheduler, whatever the order of its list. The
shards of every publisher and the other members correspond one to one; all members compute the same map, and
each finds its own shard with the inverse. A member accepts a shard of another publisher from the publisher if
the shard is its own, and from the owner if not; everything else is refused with an error. -/
theorem shards_scheduled (nodes : List (PeerCommittee Peer)) (htwo : 2 ≤ nodes.length)
    (hfits : nodes.length ≤ 2 ^ 32) (hnodup : (nodes.map fun p => p.id).Nodup) (id : Peer)
    (hid : id ∈ nodes.map fun p => p.id) :
    ∃ s, newScheduler id nodes = .ok s ∧
      (∀ publisher ∈ nodes.map (fun p => p.id),
        Assigns (nodes.map fun p => p.id) publisher (s.peerForShardIndex publisher)) ∧
      (∀ publisher i, s.shardIndexForPublisher publisher = .ok i ↔ s.peerForShardIndex publisher i = .ok id) ∧
      (∀ nodes' id' s', (nodes'.map fun p => p.id).Perm (nodes.map fun p => p.id) →
        newScheduler id' nodes' = .ok s' →
        s'.peerForShardIndex = s.peerForShardIndex) ∧
      ∀ sender publisher i, s.validateShardOrigin sender publisher i ≠ .error .panic ∧
        (s.validateShardOrigin sender publisher i = .ok () ↔ publisher ≠ id ∧
          (sender = publisher ∧ s.peerForShardIndex publisher i = .ok id ∨
            s.peerForShardIndex publisher i = .ok sender ∧ sender ≠ id)) := by
  obtain ⟨s, hs⟩ := newScheduler_of_mem htwo hnodup hid
  obtain ⟨hsched, rfl, hidx⟩ := newScheduler_ok hs
  have hmap : ∀ publisher, s.peerForShardIndex publisher = owner (committee nodes) publisher :=
    fun publisher =>
    funext (hsched.peerForShardIndex_eq publisher)
  refine ⟨s, hs, fun publisher hpub => ?_, fun publisher i => hsched.shardIndexForPublisher_eq_ok hidx hfits,
    fun nodes' id' s' hperm hs' => ?_,
    fun sender publisher i => ⟨hsched.validateShardOrigin_ne_panic sender, validateShardOrigin_eq_ok⟩⟩
  · obtain ⟨htotal, hunique, hrange⟩ := assigns_owner hsched.nodup ((committee_perm nodes).mem_iff.mpr hpub)
    simp only [(committee_perm nodes).mem_iff, (committee_perm nodes).length_eq] at htotal hunique hrange
    rw [hmap]
    exact ⟨htotal, hunique, hrange⟩
  · funext publisher i
    rw [(newScheduler_ok hs').1.peerForShardIndex_eq, hmap, committee_congr hperm]

def unordered : List (PeerCommittee ℕ) := [⟨3, 0⟩, ⟨1, 0⟩, ⟨2, 0⟩]

theorem shards_scheduled_unordered :
    ∃ s, newScheduler 2 unordered = .ok s ∧ Assigns [3, 1, 2] 1 (s.peerForShardIndex 1) := by
  obtain ⟨s, hs, hassigns, -⟩ := shards_scheduled unordered (by decide) (by decide) (by decide) 2 (by decide)
  exact ⟨s, hs, hassigns 1 (by decide)⟩

/-- **The publisher accepts its own shards from nobody**: peer 1 has the first shard of publisher 2 and peer 2
has not, and yet it refuses the shard when it comes from peer 1. -/
theorem own_shard_refused : ∃ s, newScheduler 2 unordered = .ok s ∧ s.peerForShardIndex 2 0 = .ok 1 ∧
    s.validateShardOrigin 1 2 0 = .error .selfPublished :=
  ⟨⟨2, 1, [⟨1, 0⟩, ⟨2, 0⟩, ⟨3, 0⟩], 1, 1⟩, by decide⟩

end Juno.Propeller
