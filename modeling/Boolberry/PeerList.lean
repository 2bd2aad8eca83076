import Boolberry.Lib.Multiindex
import Mathlib.Data.Finset.Card
import Mathlib.Data.Finset.Insert
import Mathlib.Data.UInt

/-!
# Peer lists

`peerlist_manager` of `net_peerlist.h`: the white list of peers that were reached,
the gray list of peers heard of. Each list is kept by address and by the time its
peers were last seen.
-/

namespace Boolberry
open KeyValue

def P2P_LOCAL_WHITE_PEERLIST_LIMIT : ℕ := 1000
def P2P_LOCAL_GRAY_PEERLIST_LIMIT : ℕ := 5000

structure NetAddress where
  ip : UInt32
  port : UInt32
deriving DecidableEq

structure PeerlistEntry where
  adr : NetAddress
  id : UInt64
  lastSeen : ℤ

def isIpLoopback (ip : UInt32) : Bool := ip ||| 0xffffff00 == 0xffffff7f

/-- `is_ip_local`; the second number of a `172` address is looked for in the wrong bits. -/
def isIpLocal (ip : UInt32) : Bool :=
  if ip ||| 0xffffff00 == 0xffffff0a then true
  else if ip ||| 0xffff0000 == 0xffffa8c0 then true
  else if ip ||| 0xffffff00 == 0xffffffac then
    let secondNum := (ip <<< 8) &&& 0xff000000
    decide (16 ≤ secondNum) && decide (secondNum ≤ 31)
  else false

abbrev PeersIndexed := Multiindex PeerlistEntry.adr PeerlistEntry.lastSeen

structure PeerlistManager where
  allowLocalIp : Bool
  peersGray : PeersIndexed
  peersWhite : PeersIndexed

namespace PeerlistManager

def init (allowLocalIp : Bool) : PeerlistManager := ⟨allowLocalIp, .empty, .empty⟩

def isIpAllowed (m : PeerlistManager) (ip : UInt32) : Bool :=
  if isIpLoopback ip then false
  else if !m.allowLocalIp && isIpLocal ip then false
  else true

/-- `trim_white_peerlist`, which trims the gray list. -/
def trimWhitePeerlist (m : PeerlistManager) : PeerlistManager :=
  { m with peersGray := m.peersGray.trim P2P_LOCAL_GRAY_PEERLIST_LIMIT }

/-- `trim_gray_peerlist`, which trims the white list. -/
def trimGrayPeerlist (m : PeerlistManager) : PeerlistManager :=
  { m with peersWhite := m.peersWhite.trim P2P_LOCAL_WHITE_PEERLIST_LIMIT }

def appendWithPeerWhite (m : PeerlistManager) (ple : PeerlistEntry) : PeerlistManager :=
  if !m.isIpAllowed ple.adr.ip then m
  else
    let m :=
      if ple.adr ∉ m.peersWhite.keys then
        trimWhitePeerlist { m with peersWhite := m.peersWhite.insert ple }
      else { m with peersWhite := m.peersWhite.replace ple }
    if ple.adr ∈ m.peersGray.keys then { m with peersGray := m.peersGray.erase ple.adr } else m

def appendWithPeerGray (m : PeerlistManager) (ple : PeerlistEntry) : PeerlistManager :=
  if !m.isIpAllowed ple.adr.ip then m
  else if ple.adr ∈ m.peersWhite.keys then m
  else if ple.adr ∉ m.peersGray.keys then
    trimGrayPeerlist { m with peersGray := m.peersGray.insert ple }
  else { m with peersGray := m.peersGray.replace ple }

def mergePeerlist (m : PeerlistManager) (outerBs : List PeerlistEntry) : PeerlistManager :=
  trimGrayPeerlist (outerBs.foldl appendWithPeerGray m)

/-- `set_peer_just_seen` at the time `now`. -/
def setPeerJustSeen (m : PeerlistManager) (peer : UInt64) (addr : NetAddress) (now : ℤ) :
    PeerlistManager :=
  m.appendWithPeerWhite ⟨addr, peer, now⟩

inductive Call where
  | merge (outerBs : List PeerlistEntry)
  | white (ple : PeerlistEntry)
  | gray (ple : PeerlistEntry)
  | justSeen (peer : UInt64) (addr : NetAddress) (now : ℤ)

def Call.apply (m : PeerlistManager) : Call → PeerlistManager
  | .merge outerBs => m.mergePeerlist outerBs
  | .white ple => m.appendWithPeerWhite ple
  | .gray ple => m.appendWithPeerGray ple
  | .justSeen peer addr now => m.setPeerJustSeen peer addr now

/-- No address is in a list twice or in both lists, and none is a disallowed one. -/
structure Distinct (m : PeerlistManager) : Prop where
  nodup : (m.peersWhite.keys ++ m.peersGray.keys).Nodup
  allowed : ∀ a ∈ m.peersWhite.keys ++ m.peersGray.keys, m.isIpAllowed a.ip = true

/-- The lists are within their limits. -/
structure Bounded (m : PeerlistManager) : Prop where
  white : m.peersWhite.size ≤ P2P_LOCAL_WHITE_PEERLIST_LIMIT
  gray : m.peersGray.size ≤ P2P_LOCAL_GRAY_PEERLIST_LIMIT

/-- A list with an entry put in. -/
def put (l : PeersIndexed) (ple : PeerlistEntry) : PeersIndexed :=
  if ple.adr ∉ l.keys then l.insert ple else l.replace ple

/-- The lists with an entry for the white one where it belongs, and nothing trimmed. -/
def withWhite (m : PeerlistManager) (ple : PeerlistEntry) : PeerlistManager :=
  if m.isIpAllowed ple.adr.ip then
    { m with peersWhite := put m.peersWhite ple, peersGray := m.peersGray.erase ple.adr }
  else m

/-- The same for the gray one, which takes no entry of a white address. -/
def withGray (m : PeerlistManager) (ple : PeerlistEntry) : PeerlistManager :=
  if m.isIpAllowed ple.adr.ip ∧ ple.adr ∉ m.peersWhite.keys then
    { m with peersGray := put m.peersGray ple }
  else m

/-- `m'` is `m` without some entries: each was in a list over its limit, and was seen no later than those
that stay there. -/
structure TrimsOldest (m m' : PeerlistManager) : Prop where
  white : ∀ x ∈ m.peersWhite.entries, x.adr ∉ m'.peersWhite.keys →
    P2P_LOCAL_WHITE_PEERLIST_LIMIT < m.peersWhite.size ∧
      ∀ y ∈ m'.peersWhite.entries, x.lastSeen ≤ y.lastSeen
  gray : ∀ x ∈ m.peersGray.entries, x.adr ∉ m'.peersGray.keys →
    P2P_LOCAL_GRAY_PEERLIST_LIMIT < m.peersGray.size ∧
      ∀ y ∈ m'.peersGray.entries, x.lastSeen ≤ y.lastSeen

/-- Whatever a call trims behind an entry that it puts in is the oldest of a list that overflows. -/
def OldestOut (m : PeerlistManager) : Call → Prop
  | .merge outerBs =>
      (∀ k x, outerBs[k]? = some x →
        let m := (outerBs.take k).foldl appendWithPeerGray m
        TrimsOldest (m.withGray x) (m.appendWithPeerGray x)) ∧
      TrimsOldest (outerBs.foldl appendWithPeerGray m) (m.mergePeerlist outerBs)
  | .white ple => TrimsOldest (m.withWhite ple) (m.appendWithPeerWhite ple)
  | .gray ple => TrimsOldest (m.withGray ple) (m.appendWithPeerGray ple)
  | .justSeen peer addr now =>
      TrimsOldest (m.withWhite ⟨addr, peer, now⟩) (m.setPeerJustSeen peer addr now)

/-- The lists after every call of a run: distinct, within their limits, trimmed from the old end. -/
def Kept : PeerlistManager → List Call → Prop
  | _, [] => True
  | m, c :: l => (Distinct (c.apply m) ∧ Bounded (c.apply m) ∧ OldestOut m c) ∧ Kept (c.apply m) l

/-- The allowed addresses of `l` that are in neither list. -/
def newAddresses (m : PeerlistManager) (l : List PeerlistEntry) : Finset NetAddress :=
  (l.map PeerlistEntry.adr).toFinset.filter fun a =>
    m.isIpAllowed a.ip = true ∧ a ∉ m.peersWhite.keys ∧ a ∉ m.peersGray.keys

/-- The list that a new address of the call goes to is not full. -/
def HasRoom (m : PeerlistManager) : Call → Prop
  | .merge outerBs => m.peersGray.size + (m.newAddresses outerBs).card ≤ P2P_LOCAL_GRAY_PEERLIST_LIMIT
  | .white ple => m.isIpAllowed ple.adr.ip = true → ple.adr ∉ m.peersWhite.keys →
      m.peersWhite.size < P2P_LOCAL_WHITE_PEERLIST_LIMIT
  | .gray ple => m.isIpAllowed ple.adr.ip = true → ple.adr ∉ m.peersWhite.keys →
      ple.adr ∉ m.peersGray.keys → m.peersGray.size < P2P_LOCAL_GRAY_PEERLIST_LIMIT
  | .justSeen _ addr _ => m.isIpAllowed addr.ip = true → addr ∉ m.peersWhite.keys →
      m.peersWhite.size < P2P_LOCAL_WHITE_PEERLIST_LIMIT

/-- Every call of a run finds room in the state it comes in. -/
def RoomThroughout : PeerlistManager → List Call → Prop
  | _, [] => True
  | m, c :: l => m.HasRoom c ∧ RoomThroughout (c.apply m) l

section Append

variable {m : PeerlistManager} {ple : PeerlistEntry}

theorem mem_keys {l : PeersIndexed} {x : PeerlistEntry} (h : x ∈ l.entries) : x.adr ∈ l.keys :=
  List.mem_map_of_mem h

/-- The lists after an entry for the white list: it is in there, and nowhere else. -/
structure WhiteAppended (m : PeerlistManager) (ple : PeerlistEntry) (m' : PeerlistManager) : Prop where
  allowLocalIp : m'.allowLocalIp = m.allowLocalIp
  white : m'.peersWhite = put m.peersWhite ple
  whiteKeys : ∀ a, a ∈ m'.peersWhite.keys ↔ a = ple.adr ∨ a ∈ m.peersWhite.keys
  whiteSize : m'.peersWhite.size =
    if ple.adr ∈ m.peersWhite.keys then m.peersWhite.size else m.peersWhite.size + 1
  gray : m'.peersGray = m.peersGray.erase ple.adr ∨
    m'.peersGray = (m.peersGray.trim P2P_LOCAL_GRAY_PEERLIST_LIMIT).erase ple.adr

theorem erase_of_notMem {l : PeersIndexed} {a : NetAddress} (h : a ∉ l.keys) : l.erase a = l := by
  have hentries : l.entries.filter (fun x => decide (x.adr ≠ a)) = l.entries := by
    refine List.filter_eq_self.mpr fun x hx => decide_eq_true ?_
    rintro rfl
    exact h (mem_keys hx)
  obtain ⟨entries, sorted, nodup⟩ := l
  simp only [Multiindex.erase, Multiindex.mk.injEq]
  exact hentries

theorem appendWithPeerWhite_spec (hallowed : m.isIpAllowed ple.adr.ip = true) :
    WhiteAppended m ple (m.appendWithPeerWhite ple) := by
  have herase : ∀ l : PeersIndexed, (if ple.adr ∈ l.keys then l.erase ple.adr else l) =
      l.erase ple.adr := by
    intro l
    split_ifs with h
    · rfl
    · exact (erase_of_notMem h).symm
  unfold appendWithPeerWhite
  simp only [hallowed, Bool.not_true, Bool.false_eq_true, if_false]
  by_cases hw : ple.adr ∈ m.peersWhite.keys
  · simp only [hw, not_true_eq_false, if_false]
    have hkeys := m.peersWhite.replace_keys ple
    have hgray := herase m.peersGray
    refine ⟨?_, ?_, fun a => ?_, ?_, Or.inl ?_⟩
    · split_ifs <;> rfl
    · rw [put, if_neg (not_not.mpr hw)]
      split_ifs <;> rfl
    · have hmem : a ∈ (m.peersWhite.replace ple).keys ↔ a ∈ m.peersWhite.keys := hkeys.mem_iff
      split_ifs <;>
      · simp only [hmem]
        exact ⟨Or.inr, fun h => h.elim (fun he => he ▸ hw) id⟩
    · rw [if_pos hw]
      split_ifs <;> exact m.peersWhite.replace_size ple
    · rw [← hgray]
      split_ifs <;> rfl
  · simp only [hw, not_false_eq_true, if_true, trimWhitePeerlist]
    have hkeys := m.peersWhite.insert_keys (x := ple) hw
    have hgray := herase (m.peersGray.trim P2P_LOCAL_GRAY_PEERLIST_LIMIT)
    refine ⟨?_, ?_, fun a => ?_, ?_, Or.inr ?_⟩
    · split_ifs <;> rfl
    · rw [put, if_pos hw]
      split_ifs <;> rfl
    · have hmem : a ∈ (m.peersWhite.insert ple).keys ↔ a = ple.adr ∨ a ∈ m.peersWhite.keys := by
        rw [hkeys.mem_iff, List.mem_cons]
      split_ifs <;> exact hmem
    · rw [if_neg hw]
      split_ifs <;> exact m.peersWhite.insert_size hw
    · rw [← hgray]
      split_ifs <;> rfl

/-- The lists after an entry for the gray list that is in neither list. -/
structure GrayAppended (m : PeerlistManager) (ple : PeerlistEntry) (m' : PeerlistManager) : Prop where
  allowLocalIp : m'.allowLocalIp = m.allowLocalIp
  gray : m'.peersGray = put m.peersGray ple
  grayKeys : ∀ a, a ∈ m'.peersGray.keys ↔ a = ple.adr ∨ a ∈ m.peersGray.keys
  graySize : m'.peersGray.size =
    if ple.adr ∈ m.peersGray.keys then m.peersGray.size else m.peersGray.size + 1
  white : m'.peersWhite = m.peersWhite ∨
    m'.peersWhite = m.peersWhite.trim P2P_LOCAL_WHITE_PEERLIST_LIMIT

theorem appendWithPeerGray_spec (hallowed : m.isIpAllowed ple.adr.ip = true)
    (hw : ple.adr ∉ m.peersWhite.keys) : GrayAppended m ple (m.appendWithPeerGray ple) := by
  unfold appendWithPeerGray
  simp only [hallowed, Bool.not_true, Bool.false_eq_true, if_false, hw]
  by_cases hg : ple.adr ∈ m.peersGray.keys
  · simp only [hg, not_true_eq_false, if_false]
    refine ⟨rfl, (if_neg (not_not.mpr hg)).symm, fun a => ?_, ?_, Or.inl rfl⟩
    · rw [(m.peersGray.replace_keys ple).mem_iff]
      exact ⟨Or.inr, fun h => h.elim (fun he => he ▸ hg) id⟩
    · rw [if_pos hg]
      exact m.peersGray.replace_size ple
  · simp only [hg, not_false_eq_true, if_true, trimGrayPeerlist]
    refine ⟨rfl, (if_pos hg).symm, fun a => ?_, ?_, Or.inr rfl⟩
    · rw [(m.peersGray.insert_keys (x := ple) hg).mem_iff, List.mem_cons]
    · rw [if_neg hg]
      exact m.peersGray.insert_size hg

/-- An entry that is disallowed or known as white changes nothing. -/
theorem appendWithPeerGray_ignored
    (h : ¬(m.isIpAllowed ple.adr.ip = true ∧ ple.adr ∉ m.peersWhite.keys)) :
    m.appendWithPeerGray ple = m := by
  unfold appendWithPeerGray
  cases hallowed : m.isIpAllowed ple.adr.ip with
  | false => rfl
  | true =>
    have hw : ple.adr ∈ m.peersWhite.keys := by
      by_contra hw
      exact h ⟨hallowed, hw⟩
    simp [hw]

theorem appendWithPeerWhite_disallowed (h : m.isIpAllowed ple.adr.ip = false) :
    m.appendWithPeerWhite ple = m := by
  simp [appendWithPeerWhite, h]

end Append

section Calls

variable {m m' m'' : PeerlistManager} {ple : PeerlistEntry}

theorem isIpAllowed_congr (h : m'.allowLocalIp = m.allowLocalIp) (ip : UInt32) :
    m'.isIpAllowed ip = m.isIpAllowed ip := by
  unfold isIpAllowed
  rw [h]

/-- Lists whose addresses are among those of distinct ones, or are one allowed address more. -/
theorem Distinct.of_subset (ple : PeerlistEntry) (hd : Distinct m) (hallow : m'.allowLocalIp = m.allowLocalIp)
    (hw : ∀ a ∈ m'.peersWhite.keys, (a = ple.adr ∧ m.isIpAllowed a.ip = true) ∨
      a ∈ m.peersWhite.keys)
    (hg : ∀ a ∈ m'.peersGray.keys, (a = ple.adr ∧ m.isIpAllowed a.ip = true) ∨
      a ∈ m.peersGray.keys)
    (hdis : ple.adr ∈ m'.peersWhite.keys → ple.adr ∉ m'.peersGray.keys) : Distinct m' := by
  have hnd := List.nodup_append.mp hd.nodup
  refine ⟨List.nodup_append.mpr ⟨m'.peersWhite.nodup, m'.peersGray.nodup, fun a ha b hb hab => ?_⟩,
    fun a ha => ?_⟩
  · subst hab
    by_cases he : a = ple.adr
    · exact hdis (he ▸ ha) (he ▸ hb)
    · exact hnd.2.2 a ((hw a ha).resolve_left fun h => he h.1) a
        ((hg a hb).resolve_left fun h => he h.1) rfl
  · rw [isIpAllowed_congr hallow]
    rcases List.mem_append.mp ha with ha | ha
    · exact (hw a ha).elim And.right fun h => hd.allowed a (List.mem_append_left _ h)
    · exact (hg a ha).elim And.right fun h => hd.allowed a (List.mem_append_right _ h)

theorem Distinct.white (hd : Distinct m) (hallowed : m.isIpAllowed ple.adr.ip = true)
    (h : WhiteAppended m ple m') : Distinct m' := by
  have hgray : ∀ a ∈ m'.peersGray.keys, a ∈ m.peersGray.keys ∧ a ≠ ple.adr := by
    intro a ha
    rcases h.gray with hg | hg
    · rw [hg, Multiindex.mem_keys_erase] at ha
      exact ha
    · rw [hg, Multiindex.mem_keys_erase] at ha
      exact ⟨Multiindex.trim_keys_subset _ _ a ha.1, ha.2⟩
  refine hd.of_subset ple h.allowLocalIp (fun a ha => ?_) (fun a ha => ?_) fun _ hb => ?_
  · exact ((h.whiteKeys a).mp ha).imp_left fun he => ⟨he, he ▸ hallowed⟩
  · exact Or.inr (hgray a ha).1
  · exact (hgray _ hb).2 rfl

theorem GrayAppended.white_subset (h : GrayAppended m ple m') :
    ∀ a ∈ m'.peersWhite.keys, a ∈ m.peersWhite.keys := by
  intro a ha
  rcases h.white with hw | hw
  · rwa [hw] at ha
  · rw [hw] at ha
    exact Multiindex.trim_keys_subset _ _ a ha

theorem Distinct.gray (hd : Distinct m) (hallowed : m.isIpAllowed ple.adr.ip = true)
    (hw : ple.adr ∉ m.peersWhite.keys) (h : GrayAppended m ple m') : Distinct m' := by
  refine hd.of_subset ple h.allowLocalIp (fun a ha => ?_) (fun a ha => ?_) fun ha => ?_
  · exact Or.inr (h.white_subset a ha)
  · exact ((h.grayKeys a).mp ha).imp_left fun he => ⟨he, he ▸ hallowed⟩
  · exact absurd (h.white_subset _ ha) hw

/-- The lists after a list of entries for the gray list. -/
structure GrayFolded (m : PeerlistManager) (l : List PeerlistEntry) (m' : PeerlistManager) : Prop where
  allowLocalIp : m'.allowLocalIp = m.allowLocalIp
  distinct : Distinct m → Distinct m'
  white : m'.peersWhite = m.peersWhite ∨
    m'.peersWhite = m.peersWhite.trim P2P_LOCAL_WHITE_PEERLIST_LIMIT
  grayKeys : ∀ a ∈ m.peersGray.keys, a ∈ m'.peersGray.keys
  graySize : m.peersWhite.size ≤ P2P_LOCAL_WHITE_PEERLIST_LIMIT →
    m'.peersGray.size = m.peersGray.size + (m.newAddresses l).card

theorem GrayAppended.white_eq (h : GrayAppended m ple m')
    (hb : m.peersWhite.size ≤ P2P_LOCAL_WHITE_PEERLIST_LIMIT) : m'.peersWhite = m.peersWhite := by
  rcases h.white with hw | hw
  · exact hw
  · rw [hw, Multiindex.trim_of_le _ hb]

theorem trim_trim (l : PeersIndexed) (limit : ℕ) : (l.trim limit).trim limit = l.trim limit :=
  Multiindex.trim_of_le _ (by rw [Multiindex.trim_size]; exact Nat.min_le_right _ _)

theorem newAddresses_ignored (l : List PeerlistEntry)
    (h : ¬(m.isIpAllowed ple.adr.ip = true ∧ ple.adr ∉ m.peersWhite.keys)) :
    m.newAddresses (ple :: l) = m.newAddresses l := by
  unfold newAddresses
  rw [List.map_cons, List.toFinset_cons, Finset.filter_insert, if_neg]
  exact fun hn => h ⟨hn.1, hn.2.1⟩

theorem newAddresses_appended (l : List PeerlistEntry) (hallowed : m.isIpAllowed ple.adr.ip = true)
    (hw : ple.adr ∉ m.peersWhite.keys) (hwhite : m'.peersWhite = m.peersWhite)
    (h : GrayAppended m ple m') :
    (m.newAddresses (ple :: l)).card + m.peersGray.size =
      (m'.newAddresses l).card + m'.peersGray.size := by
  have hnew : ∀ a, a ∈ m'.newAddresses l ↔ a ∈ m.newAddresses l ∧ a ≠ ple.adr := by
    intro a
    simp only [newAddresses, Finset.mem_filter, isIpAllowed_congr h.allowLocalIp, hwhite,
      h.grayKeys, not_or]
    tauto
  have hinsert : m.newAddresses (ple :: l) =
      if ple.adr ∈ m.peersGray.keys then m'.newAddresses l
      else insert ple.adr (m'.newAddresses l) := by
    ext a
    split_ifs with hg
    · rw [hnew]
      simp only [newAddresses, Finset.mem_filter, List.map_cons, List.toFinset_cons,
        Finset.mem_insert]
      constructor
      · rintro ⟨he | hm, hrest⟩
        · exact absurd (he ▸ hg) hrest.2.2
        · exact ⟨⟨hm, hrest⟩, fun he => hrest.2.2 (he ▸ hg)⟩
      · rintro ⟨⟨hm, hrest⟩, -⟩
        exact ⟨Or.inr hm, hrest⟩
    · rw [Finset.mem_insert, hnew]
      simp only [newAddresses, Finset.mem_filter, List.map_cons, List.toFinset_cons,
        Finset.mem_insert]
      constructor
      · rintro ⟨he | hm, hrest⟩
        · exact Or.inl he
        · by_cases he : a = ple.adr
          · exact Or.inl he
          · exact Or.inr ⟨⟨hm, hrest⟩, he⟩
      · rintro (rfl | ⟨⟨hm, hrest⟩, -⟩)
        · exact ⟨Or.inl rfl, hallowed, hw, hg⟩
        · exact ⟨Or.inr hm, hrest⟩
  rw [hinsert, h.graySize]
  split_ifs
  · rfl
  · rw [Finset.card_insert_of_notMem fun hmem => ((hnew _).mp hmem).2 rfl]
    omega

theorem foldl_appendWithPeerGray (l : List PeerlistEntry) (m : PeerlistManager) :
    GrayFolded m l (l.foldl appendWithPeerGray m) := by
  induction l generalizing m with
  | nil => exact ⟨rfl, id, Or.inl rfl, fun _ h => h, fun _ => by simp [newAddresses]⟩
  | cons ple l ih =>
    rw [List.foldl_cons]
    by_cases hcase : m.isIpAllowed ple.adr.ip = true ∧ ple.adr ∉ m.peersWhite.keys
    · obtain ⟨hallowed, hw⟩ := hcase
      have happ := appendWithPeerGray_spec hallowed hw
      generalize m.appendWithPeerGray ple = m₁ at happ
      have hrest := ih m₁
      refine ⟨hrest.allowLocalIp.trans happ.allowLocalIp,
        fun hd => hrest.distinct (hd.gray hallowed hw happ), ?_,
        fun a ha => hrest.grayKeys a ((happ.grayKeys a).mpr (Or.inr ha)), fun hb => ?_⟩
      · rcases hrest.white with h | h <;> rcases happ.white with h' | h' <;> rw [h, h']
        · exact Or.inl rfl
        · exact Or.inr rfl
        · exact Or.inr rfl
        · exact Or.inr (trim_trim _ _)
      · have hwhite := happ.white_eq hb
        have hsize := hrest.graySize (by rw [hwhite]; exact hb)
        have hcard := newAddresses_appended l hallowed hw hwhite happ
        omega
    · rw [appendWithPeerGray_ignored hcase]
      have hrest := ih m
      refine ⟨hrest.allowLocalIp, hrest.distinct, hrest.white, hrest.grayKeys, fun hb => ?_⟩
      rw [newAddresses_ignored l hcase]
      exact hrest.graySize hb

theorem GrayFolded.white_eq {l : List PeerlistEntry} (h : GrayFolded m l m')
    (hb : m.peersWhite.size ≤ P2P_LOCAL_WHITE_PEERLIST_LIMIT) : m'.peersWhite = m.peersWhite := by
  rcases h.white with hw | hw
  · exact hw
  · rw [hw, Multiindex.trim_of_le _ hb]

/-- What leaves a list that is trimmed, or not touched, is the oldest of a list over its limit. -/
theorem oldest_of_trim {l l' : PeersIndexed} {limit : ℕ} (h : l' = l ∨ l' = l.trim limit)
    {x : PeerlistEntry} (hx : x ∈ l.entries) (hout : x.adr ∉ l'.keys) :
    limit < l.size ∧ ∀ y ∈ l'.entries, x.lastSeen ≤ y.lastSeen := by
  rcases h with rfl | rfl
  · exact absurd (mem_keys hx) hout
  · exact Multiindex.trim_oldest l hx hout

/-- To trim lists, or to leave them as they are, takes out the oldest of what is over the limit. -/
theorem TrimsOldest.of_trim
    (hw : m'.peersWhite = m.peersWhite ∨
      m'.peersWhite = m.peersWhite.trim P2P_LOCAL_WHITE_PEERLIST_LIMIT)
    (hg : m'.peersGray = m.peersGray ∨
      m'.peersGray = m.peersGray.trim P2P_LOCAL_GRAY_PEERLIST_LIMIT) : TrimsOldest m m' :=
  ⟨fun _ hx hout => oldest_of_trim hw hx hout, fun _ hx hout => oldest_of_trim hg hx hout⟩

theorem appendWithPeerWhite_trimsOldest (hb : Bounded m) (ple : PeerlistEntry) :
    TrimsOldest (m.withWhite ple) (m.appendWithPeerWhite ple) := by
  unfold withWhite
  cases hallowed : m.isIpAllowed ple.adr.ip with
  | false =>
    rw [appendWithPeerWhite_disallowed hallowed]
    exact .of_trim (Or.inl rfl) (Or.inl rfl)
  | true =>
    have happ := appendWithPeerWhite_spec hallowed
    refine .of_trim (Or.inl happ.white) (Or.inl ?_)
    rcases happ.gray with h | h
    · exact h
    · rw [h, Multiindex.trim_of_le _ hb.gray]
      rfl

theorem appendWithPeerGray_trimsOldest (hb : m.peersWhite.size ≤ P2P_LOCAL_WHITE_PEERLIST_LIMIT)
    (ple : PeerlistEntry) : TrimsOldest (m.withGray ple) (m.appendWithPeerGray ple) := by
  unfold withGray
  split_ifs with hcase
  · have happ := appendWithPeerGray_spec hcase.1 hcase.2
    exact .of_trim (Or.inl (happ.white_eq hb)) (Or.inl happ.gray)
  · rw [appendWithPeerGray_ignored hcase]
    exact .of_trim (Or.inl rfl) (Or.inl rfl)

theorem white_step (hd : Distinct m) (hb : Bounded m) (ple : PeerlistEntry) :
    (Distinct (m.appendWithPeerWhite ple) ∧ Bounded (m.appendWithPeerWhite ple) ∧
      TrimsOldest (m.withWhite ple) (m.appendWithPeerWhite ple)) ↔ m.HasRoom (.white ple) := by
  have htrims := appendWithPeerWhite_trimsOldest hb ple
  cases hallowed : m.isIpAllowed ple.adr.ip with
  | false =>
    rw [appendWithPeerWhite_disallowed hallowed] at htrims ⊢
    exact ⟨fun _ h => by simp [hallowed] at h, fun _ => ⟨hd, hb, htrims⟩⟩
  | true =>
    have happ : WhiteAppended m ple (m.appendWithPeerWhite ple) := appendWithPeerWhite_spec hallowed
    have hgray : (m.appendWithPeerWhite ple).peersGray.size ≤ P2P_LOCAL_GRAY_PEERLIST_LIMIT := by
      rcases happ.gray with h | h
      · rw [h]
        exact (Multiindex.erase_size_le _ _).trans hb.gray
      · rw [h]
        refine (Multiindex.erase_size_le _ _).trans ?_
        rw [Multiindex.trim_size]
        exact Nat.min_le_right _ _
    have hsize := happ.whiteSize
    constructor
    · rintro ⟨-, hb', -⟩ - hw
      have := hb'.white
      rw [hsize, if_neg hw] at this
      exact this
    · intro hroom
      refine ⟨hd.white hallowed happ, ⟨?_, hgray⟩, htrims⟩
      rw [hsize]
      split_ifs with hw
      · exact hb.white
      · exact hroom hallowed hw

theorem gray_step (hd : Distinct m) (hb : Bounded m) (ple : PeerlistEntry) :
    (Distinct (m.appendWithPeerGray ple) ∧ Bounded (m.appendWithPeerGray ple) ∧
      OldestOut m (.gray ple)) ↔ m.HasRoom (.gray ple) := by
  have htrims := appendWithPeerGray_trimsOldest hb.white ple
  by_cases hcase : m.isIpAllowed ple.adr.ip = true ∧ ple.adr ∉ m.peersWhite.keys
  · obtain ⟨hallowed, hw⟩ := hcase
    have happ := appendWithPeerGray_spec hallowed hw
    have hsize := happ.graySize
    constructor
    · rintro ⟨-, hb', -⟩ - - hg
      have := hb'.gray
      rw [hsize, if_neg hg] at this
      exact this
    · intro hroom
      refine ⟨hd.gray hallowed hw happ, ⟨?_, ?_⟩, htrims⟩
      · rw [happ.white_eq hb.white]
        exact hb.white
      · rw [hsize]
        split_ifs with hg
        · exact hb.gray
        · exact hroom hallowed hw hg
  · have hsame := appendWithPeerGray_ignored hcase
    refine ⟨fun _ h1 h2 => absurd ⟨h1, h2⟩ hcase, fun _ => ⟨?_, ?_, htrims⟩⟩
    · rwa [hsame]
    · rwa [hsame]

theorem merge_step (hd : Distinct m) (hb : Bounded m) (outerBs : List PeerlistEntry) :
    (Distinct (m.mergePeerlist outerBs) ∧ Bounded (m.mergePeerlist outerBs) ∧
      OldestOut m (.merge outerBs)) ↔ m.HasRoom (.merge outerBs) := by
  have hfold := foldl_appendWithPeerGray outerBs m
  have htrims : OldestOut m (.merge outerBs) := by
    refine ⟨fun k x _ => ?_, .of_trim (Or.inr rfl) (Or.inl rfl)⟩
    refine appendWithPeerGray_trimsOldest ?_ x
    rw [(foldl_appendWithPeerGray (outerBs.take k) m).white_eq hb.white]
    exact hb.white
  unfold mergePeerlist trimGrayPeerlist
  generalize outerBs.foldl appendWithPeerGray m = m' at hfold
  have hwhite := hfold.white_eq hb.white
  have hsize := hfold.graySize hb.white
  have htrim : { m' with peersWhite := m'.peersWhite.trim P2P_LOCAL_WHITE_PEERLIST_LIMIT } = m' := by
    rw [Multiindex.trim_of_le _ (hwhite ▸ hb.white)]
  rw [htrim]
  constructor
  · rintro ⟨-, hb', -⟩
    have := hb'.gray
    rwa [hsize] at this
  · intro hroom
    exact ⟨hfold.distinct hd, ⟨hwhite ▸ hb.white, hsize ▸ hroom⟩, htrims⟩

/-- From lists in order, a call leaves lists in order exactly when it finds room. -/
theorem step_iff (hd : Distinct m) (hb : Bounded m) (c : Call) :
    (Distinct (c.apply m) ∧ Bounded (c.apply m) ∧ OldestOut m c) ↔ m.HasRoom c := by
  cases c with
  | merge outerBs => exact merge_step hd hb outerBs
  | white ple => exact white_step hd hb ple
  | gray ple => exact gray_step hd hb ple
  | justSeen peer addr now => exact white_step hd hb ⟨addr, peer, now⟩

end Calls

theorem distinct_init (allowLocalIp : Bool) : Distinct (init allowLocalIp) :=
  ⟨List.nodup_nil, fun _ h => absurd h List.not_mem_nil⟩

theorem bounded_init (allowLocalIp : Bool) : Bounded (init allowLocalIp) :=
  ⟨Nat.zero_le _, Nat.zero_le _⟩

theorem kept_iff {m : PeerlistManager} (hd : Distinct m) (hb : Bounded m) (calls : List Call) :
    m.Kept calls ↔ m.RoomThroughout calls := by
  induction calls generalizing m with
  | nil => exact Iff.rfl
  | cons c l ih =>
    unfold Kept RoomThroughout
    rw [step_iff hd hb c]
    refine and_congr_right fun hroom => ?_
    obtain ⟨hd', hb', -⟩ := (step_iff hd hb c).mpr hroom
    exact ih hd' hb'

/-- From empty lists on, the lists stay distinct, within their limits and trimmed from the old end
exactly as long as no call brings a new address to a list that is full. -/
theorem kept_iff_roomThroughout (allowLocalIp : Bool) (calls : List Call) :
    (init allowLocalIp).Kept calls ↔ (init allowLocalIp).RoomThroughout calls :=
  kept_iff (distinct_init allowLocalIp) (bounded_init allowLocalIp) calls

/-- One peer on each port of an address. -/
def portsCalls (k : ℕ) : List Call :=
  (List.range k).map fun i => .white ⟨⟨0x01020304, UInt32.ofNat i⟩, 0, 0⟩

/-- The white list takes them all: nothing trims it. -/
theorem size_of_portsCalls {k : ℕ} (hk : k ≤ 2 ^ 32) :
    let m := (portsCalls k).foldl Call.apply (init false)
    m.peersWhite.size = k ∧ m.allowLocalIp = false ∧
      ∀ a ∈ m.peersWhite.keys, ∃ i < k, a.port = UInt32.ofNat i := by
  induction k with
  | zero => exact ⟨rfl, rfl, fun _ h => absurd h List.not_mem_nil⟩
  | succ k ih =>
    obtain ⟨hsize, hallow, hports⟩ := ih (by omega)
    have hsplit : portsCalls (k + 1) =
        portsCalls k ++ [.white ⟨⟨0x01020304, UInt32.ofNat k⟩, 0, 0⟩] := by
      simp [portsCalls, List.range_succ]
    rw [hsplit, List.foldl_append]
    generalize (portsCalls k).foldl Call.apply (init false) = m at hsize hallow hports
    have hallowed : m.isIpAllowed 0x01020304 = true := by
      unfold isIpAllowed
      rw [hallow]
      decide
    have happ : WhiteAppended m ⟨⟨0x01020304, UInt32.ofNat k⟩, 0, 0⟩ _ :=
      appendWithPeerWhite_spec hallowed
    have hnew : (⟨0x01020304, UInt32.ofNat k⟩ : NetAddress) ∉ m.peersWhite.keys := by
      intro hmem
      obtain ⟨i, hi, hport⟩ := hports _ hmem
      have := congrArg UInt32.toNat hport
      simp only [UInt32.toNat_ofNat'] at this
      rw [Nat.mod_eq_of_lt (by omega), Nat.mod_eq_of_lt (by omega)] at this
      omega
    refine ⟨?_, happ.allowLocalIp.trans hallow, fun a ha => ?_⟩
    · simp only [List.foldl_cons, List.foldl_nil, Call.apply]
      rw [happ.whiteSize, if_neg hnew, hsize]
    · rcases (happ.whiteKeys a).mp ha with rfl | ha
      · exact ⟨k, Nat.lt_succ_self k, rfl⟩
      · obtain ⟨i, hi, hport⟩ := hports a ha
        exact ⟨i, by omega, hport⟩

theorem Kept.bounded {m : PeerlistManager} (hb : Bounded m) {calls : List Call}
    (h : m.Kept calls) : Bounded (calls.foldl Call.apply m) := by
  induction calls generalizing m with
  | nil => exact hb
  | cons c l ih => exact ih h.1.2.1 h.2

/-- One peer more than the white list may hold, each from a port of its own. -/
theorem white_list_overflows : ∃ calls : List Call,
    P2P_LOCAL_WHITE_PEERLIST_LIMIT < (calls.foldl Call.apply (init false)).peersWhite.size ∧
      ¬(init false).Kept calls := by
  obtain ⟨k, hk⟩ : ∃ k, k = P2P_LOCAL_WHITE_PEERLIST_LIMIT + 1 := ⟨_, rfl⟩
  have hlimit : P2P_LOCAL_WHITE_PEERLIST_LIMIT = 1000 := rfl
  have hover : P2P_LOCAL_WHITE_PEERLIST_LIMIT <
      ((portsCalls k).foldl Call.apply (init false)).peersWhite.size := by
    rw [(size_of_portsCalls (by omega)).1]
    omega
  exact ⟨portsCalls k, hover, fun h => absurd (h.bounded (bounded_init false)).white (by omega)⟩

end PeerlistManager
end Boolberry
