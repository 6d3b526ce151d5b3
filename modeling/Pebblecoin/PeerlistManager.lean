import Pebblecoin.Containers.TimeIndex
import Mathlib.Algebra.Group.Nat.Defs
import Mathlib.Algebra.Order.Group.Int
import Mathlib.Data.List.Nodup

/-!
The lists of known peers: the white list of peers that a connection was made to, and the
gray list of those that others have told of.  The two trimming functions of the source each
trim the other list.
-/

namespace Pebblecoin

open Containers

variable {t : PeersIndexed} {a : PeerlistEntry} {calls : List PeerCall} {n : Nat}

structure NetAddress where
  ip : UInt32
  port : UInt32
deriving DecidableEq

structure PeerlistEntry where
  adr : NetAddress
  id : UInt64
  lastSeen : Int
deriving DecidableEq

/-- One entry for each address, in order of the time seen. -/
abbrev PeersIndexed := TimeIndex PeerlistEntry.adr PeerlistEntry.lastSeen

def p2pLocalWhitePeerlistLimit : Nat := 1000
def p2pLocalGrayPeerlistLimit : Nat := 5000

def isIpLocal (ip : UInt32) : Bool :=
  decide (ip ||| 0xffffff00 = 0xffffff0a) || decide (ip ||| 0xffff0000 = 0xffffa8c0) ||
    (decide (ip ||| 0xffffff00 = 0xffffffac) &&
      let secondNum := (ip <<< 8) &&& 0xff000000
      decide (16 ≤ secondNum) && decide (secondNum ≤ 31))

def isIpLoopback (ip : UInt32) : Bool := decide (ip ||| 0xffffff00 = 0xffffff7f)

structure PeerlistManager where
  allowLocalIp : Bool
  peersGray : PeersIndexed
  peersWhite : PeersIndexed

namespace PeerlistManager

def init (allowLocalIp : Bool) : PeerlistManager := ⟨allowLocalIp, TimeIndex.empty, TimeIndex.empty⟩

def isIpAllowed (m : PeerlistManager) (ip : UInt32) : Bool :=
  !isIpLoopback ip && (m.allowLocalIp || !isIpLocal ip)

/-- It is the gray list that is trimmed. -/
def trimWhitePeerlist (m : PeerlistManager) : PeerlistManager :=
  { m with peersGray := m.peersGray.trim p2pLocalGrayPeerlistLimit }

/-- It is the white list that is trimmed. -/
def trimGrayPeerlist (m : PeerlistManager) : PeerlistManager :=
  { m with peersWhite := m.peersWhite.trim p2pLocalWhitePeerlistLimit }

def appendWithPeerWhite (ple : PeerlistEntry) (m : PeerlistManager) : PeerlistManager :=
  if !m.isIpAllowed ple.adr.ip then m
  else
    let m :=
      if m.peersWhite.contains ple.adr then { m with peersWhite := m.peersWhite.replace ple }
      else trimWhitePeerlist { m with peersWhite := m.peersWhite.insert ple }
    { m with peersGray := m.peersGray.erase ple.adr }

def appendWithPeerGray (ple : PeerlistEntry) (m : PeerlistManager) : PeerlistManager :=
  if !m.isIpAllowed ple.adr.ip then m
  else if m.peersWhite.contains ple.adr then m
  else if m.peersGray.contains ple.adr then { m with peersGray := m.peersGray.replace ple }
  else trimGrayPeerlist { m with peersGray := m.peersGray.insert ple }

def mergePeerlist (outerBs : List PeerlistEntry) (m : PeerlistManager) : PeerlistManager :=
  trimGrayPeerlist (outerBs.foldl (fun m be => m.appendWithPeerGray be) m)

def setPeerJustSeen (now : Int) (peer : UInt64) (addr : NetAddress) (m : PeerlistManager) :
    PeerlistManager :=
  m.appendWithPeerWhite ⟨addr, peer, now⟩

variable {m : PeerlistManager}

theorem appendWithPeerWhite_cases (ple : PeerlistEntry) (m : PeerlistManager) :
    (m.isIpAllowed ple.adr.ip = false ∧ m.appendWithPeerWhite ple = m) ∨
    (m.isIpAllowed ple.adr.ip = true ∧ m.appendWithPeerWhite ple = { m with
      peersWhite := m.peersWhite.put ple
      peersGray := (if m.peersWhite.contains ple.adr then m.peersGray
        else m.peersGray.trim p2pLocalGrayPeerlistLimit).erase ple.adr }) := by
  rw [appendWithPeerWhite, TimeIndex.put]
  cases m.isIpAllowed ple.adr.ip with
  | false => exact .inl ⟨rfl, rfl⟩
  | true =>
    refine .inr ⟨rfl, ?_⟩
    cases m.peersWhite.contains ple.adr <;> rfl

theorem appendWithPeerGray_cases (ple : PeerlistEntry) (m : PeerlistManager) :
    ((m.isIpAllowed ple.adr.ip = false ∨ m.peersWhite.contains ple.adr = true) ∧
      m.appendWithPeerGray ple = m) ∨
    (m.isIpAllowed ple.adr.ip = true ∧ m.peersWhite.contains ple.adr = false ∧
      m.appendWithPeerGray ple = { m with
        peersWhite := if m.peersGray.contains ple.adr then m.peersWhite
          else m.peersWhite.trim p2pLocalWhitePeerlistLimit
        peersGray := m.peersGray.put ple }) := by
  rw [appendWithPeerGray, TimeIndex.put]
  cases m.isIpAllowed ple.adr.ip with
  | false => exact .inl ⟨.inl rfl, rfl⟩
  | true =>
    cases m.peersWhite.contains ple.adr with
    | true => exact .inl ⟨.inr rfl, rfl⟩
    | false =>
      refine .inr ⟨rfl, rfl, ?_⟩
      cases m.peersGray.contains ple.adr <;> rfl

theorem mem_of_mem_ite_trim {known : Bool} {limit : Nat}
    (h : a ∈ (if known then t else t.trim limit).entries) : a ∈ t.entries := by
  split_ifs at h
  · exact h
  · exact TimeIndex.mem_of_mem_trim h

structure Tidy (m : PeerlistManager) : Prop where
  apart : ∀ a ∈ m.peersWhite.entries, ∀ b ∈ m.peersGray.entries, a.adr ≠ b.adr
  white : ∀ e ∈ m.peersWhite.entries, m.isIpAllowed e.adr.ip = true
  gray : ∀ e ∈ m.peersGray.entries, m.isIpAllowed e.adr.ip = true

theorem Tidy.init (allowLocalIp : Bool) : Tidy (init allowLocalIp) where
  apart a ha := by cases ha
  white e he := by cases he
  gray e he := by cases he

theorem adr_ne_of_contains {adr : NetAddress} (h : t.contains adr = false) (ha : a ∈ t.entries) :
    a.adr ≠ adr := by
  rintro rfl
  rw [TimeIndex.contains_iff.mpr (List.mem_map_of_mem ha)] at h
  cases h

theorem Tidy.appendWithPeerWhite (h : Tidy m) (ple : PeerlistEntry) :
    Tidy (m.appendWithPeerWhite ple) := by
  rcases appendWithPeerWhite_cases ple m with ⟨-, heq⟩ | ⟨hallowed, heq⟩
  · rwa [heq]
  rw [heq]
  refine ⟨fun a ha b hb => ?_, fun e he => ?_, fun e he => ?_⟩
  · obtain ⟨hb, hne⟩ := TimeIndex.mem_erase.mp hb
    rcases TimeIndex.mem_put.mp ha with rfl | ⟨ha, -⟩
    · exact hne.symm
    · exact h.apart a ha b (mem_of_mem_ite_trim hb)
  · rcases TimeIndex.mem_put.mp he with rfl | ⟨he, -⟩
    · exact hallowed
    · exact h.white e he
  · exact h.gray e (mem_of_mem_ite_trim (TimeIndex.mem_erase.mp he).1)

theorem Tidy.appendWithPeerGray (h : Tidy m) (ple : PeerlistEntry) :
    Tidy (m.appendWithPeerGray ple) := by
  rcases appendWithPeerGray_cases ple m with ⟨-, heq⟩ | ⟨hallowed, hwhite, heq⟩
  · rwa [heq]
  rw [heq]
  refine ⟨fun a ha b hb => ?_, fun e he => h.white e (mem_of_mem_ite_trim he), fun e he => ?_⟩
  · have hold := mem_of_mem_ite_trim ha
    rcases TimeIndex.mem_put.mp hb with rfl | ⟨hb, -⟩
    · exact adr_ne_of_contains hwhite hold
    · exact h.apart a hold b hb
  · rcases TimeIndex.mem_put.mp he with rfl | ⟨he, -⟩
    · exact hallowed
    · exact h.gray e he

theorem Tidy.trimGrayPeerlist (h : Tidy m) : Tidy m.trimGrayPeerlist :=
  ⟨fun a ha b hb => h.apart a (TimeIndex.mem_of_mem_trim ha) b hb,
    fun e he => h.white e (TimeIndex.mem_of_mem_trim he), h.gray⟩

theorem Tidy.mergePeerlist (h : Tidy m) (outerBs : List PeerlistEntry) :
    Tidy (m.mergePeerlist outerBs) := by
  refine Tidy.trimGrayPeerlist ?_
  induction outerBs generalizing m with
  | nil => exact h
  | cons be outerBs ih => exact ih (h.appendWithPeerGray be)

def InLimits (m : PeerlistManager) : Prop :=
  m.peersWhite.size ≤ p2pLocalWhitePeerlistLimit ∧ m.peersGray.size ≤ p2pLocalGrayPeerlistLimit

/-- If the entry is new to the white list, there is room for it. -/
def RoomWhite (m : PeerlistManager) (ple : PeerlistEntry) : Prop :=
  m.isIpAllowed ple.adr.ip = true → m.peersWhite.contains ple.adr = false →
    m.peersWhite.size < p2pLocalWhitePeerlistLimit

/-- If the entry is new to the gray list, there is room for it. -/
def RoomGray (m : PeerlistManager) (ple : PeerlistEntry) : Prop :=
  m.isIpAllowed ple.adr.ip = true → m.peersWhite.contains ple.adr = false →
    m.peersGray.contains ple.adr = false → m.peersGray.size < p2pLocalGrayPeerlistLimit

def RoomGrayAll : List PeerlistEntry → PeerlistManager → Prop
  | [], _ => True
  | be :: outerBs, m => m.RoomGray be ∧ RoomGrayAll outerBs (m.appendWithPeerGray be)

theorem size_put_le_iff (ple : PeerlistEntry) {limit : Nat} :
    (t.put ple).size ≤ limit ↔
      t.size ≤ limit ∧ (t.contains ple.adr = false → t.size < limit) := by
  rw [TimeIndex.size_put]
  cases t.contains ple.adr
  · simp only [Bool.false_eq_true, if_false, true_imp_iff]
    omega
  · simp

theorem size_ite_trim_le (known : Bool) (limit : Nat) (t : PeersIndexed) :
    (if known then t else t.trim limit).size ≤ t.size := by
  split_ifs
  · exact Nat.le_refl _
  · exact TimeIndex.size_trim.trans_le (Nat.min_le_right _ _)

theorem appendWithPeerWhite_inLimits_iff (h : InLimits m) (ple : PeerlistEntry) :
    InLimits (m.appendWithPeerWhite ple) ↔ m.RoomWhite ple := by
  rcases appendWithPeerWhite_cases ple m with ⟨hno, heq⟩ | ⟨hallowed, heq⟩
  · rw [heq]
    refine iff_of_true h fun hallowed => ?_
    rw [hno] at hallowed
    cases hallowed
  · have hgray : ((if m.peersWhite.contains ple.adr then m.peersGray
        else m.peersGray.trim p2pLocalGrayPeerlistLimit).erase ple.adr).size ≤
        p2pLocalGrayPeerlistLimit :=
      (TimeIndex.size_erase_le.trans (size_ite_trim_le ..)).trans h.2
    rw [heq, InLimits, and_iff_left hgray, size_put_le_iff, and_iff_right h.1, RoomWhite,
      forall_prop_of_true hallowed]

theorem appendWithPeerGray_size_le_iff (ple : PeerlistEntry) (m : PeerlistManager) :
    (m.appendWithPeerGray ple).peersGray.size ≤ p2pLocalGrayPeerlistLimit ↔
      m.peersGray.size ≤ p2pLocalGrayPeerlistLimit ∧ m.RoomGray ple := by
  rcases appendWithPeerGray_cases ple m with ⟨hno, heq⟩ | ⟨hallowed, hwhite, heq⟩
  · have hroom : m.RoomGray ple := by
      intro hallowed hwhite
      rw [hallowed, hwhite] at hno
      rcases hno with hno | hno <;> cases hno
    rw [heq, and_iff_left hroom]
  · rw [heq, size_put_le_iff, RoomGray, forall_prop_of_true hallowed, forall_prop_of_true hwhite]

theorem appendWithPeerGray_white_size_le (ple : PeerlistEntry) (m : PeerlistManager) :
    (m.appendWithPeerGray ple).peersWhite.size ≤ m.peersWhite.size := by
  rcases appendWithPeerGray_cases ple m with ⟨-, heq⟩ | ⟨-, -, heq⟩
  · rw [heq]
  · rw [heq]
    exact size_ite_trim_le ..

theorem appendWithPeerGray_inLimits_iff (h : InLimits m) (ple : PeerlistEntry) :
    InLimits (m.appendWithPeerGray ple) ↔ m.RoomGray ple := by
  have hwhite := (appendWithPeerGray_white_size_le ple m).trans h.1
  rw [InLimits, and_iff_right hwhite, appendWithPeerGray_size_le_iff, and_iff_right h.2]

theorem mergePeerlist_inLimits_iff (h : InLimits m) (outerBs : List PeerlistEntry) :
    InLimits (m.mergePeerlist outerBs) ↔ RoomGrayAll outerBs m := by
  have hfold : ∀ m : PeerlistManager,
      (outerBs.foldl (fun m be => m.appendWithPeerGray be) m).peersGray.size ≤
        p2pLocalGrayPeerlistLimit ↔
      m.peersGray.size ≤ p2pLocalGrayPeerlistLimit ∧ RoomGrayAll outerBs m := by
    induction outerBs with
    | nil => exact fun m => (and_iff_left trivial).symm
    | cons be outerBs ih =>
      intro m
      rw [List.foldl_cons, ih, appendWithPeerGray_size_le_iff, RoomGrayAll, and_assoc]
  have hwhite : (m.mergePeerlist outerBs).peersWhite.size ≤ p2pLocalWhitePeerlistLimit :=
    TimeIndex.size_trim.trans_le (Nat.min_le_left _ _)
  rw [InLimits, and_iff_right hwhite]
  exact (hfold m).trans (and_iff_right h.2)

/-- Entries leave a list only if it is over its limit, and then the oldest ones; or else, from
the gray list, because they have moved to the white one. -/
structure DropsOldest (m m' : PeerlistManager) : Prop where
  white : ∀ a ∈ m.peersWhite.entries, a.adr ∉ m'.peersWhite.keys →
    p2pLocalWhitePeerlistLimit < m.peersWhite.size ∧
      ∀ b ∈ m'.peersWhite.entries, b ∈ m.peersWhite.entries → a.lastSeen ≤ b.lastSeen
  gray : ∀ a ∈ m.peersGray.entries, a.adr ∉ m'.peersGray.keys → a.adr ∉ m'.peersWhite.keys →
    p2pLocalGrayPeerlistLimit < m.peersGray.size ∧
      ∀ b ∈ m'.peersGray.entries, b ∈ m.peersGray.entries → a.lastSeen ≤ b.lastSeen

theorem mem_keys (h : a ∈ t.entries) : a.adr ∈ t.keys :=
  List.mem_map_of_mem h

theorem dropped_of_trim {limit : Nat} (ha : a ∈ t.entries) (hgone : a ∉ (t.trim limit).entries) :
    limit < t.size ∧ ∀ b ∈ (t.trim limit).entries, a.lastSeen ≤ b.lastSeen :=
  ⟨TimeIndex.limit_lt_of_trim ha hgone, fun _ hb => TimeIndex.time_le_of_trim ha hgone hb⟩

theorem DropsOldest.appendWithPeerWhite (m : PeerlistManager) (ple : PeerlistEntry) :
    DropsOldest m (m.appendWithPeerWhite ple) := by
  rcases appendWithPeerWhite_cases ple m with ⟨-, heq⟩ | ⟨-, heq⟩
  · rw [heq]
    exact ⟨fun a ha hgone => absurd (mem_keys ha) hgone, fun a ha hgone => absurd (mem_keys ha) hgone⟩
  rw [heq]
  refine ⟨fun a ha hgone => absurd (TimeIndex.keys_subset_put _ _ (mem_keys ha)) hgone,
    fun a ha hgone hmoved => ?_⟩
  dsimp only at hgone hmoved ⊢
  rcases eq_or_ne a.adr ple.adr with hadr | hadr
  · refine absurd ?_ hmoved
    rw [hadr]
    exact mem_keys (TimeIndex.mem_put.mpr (.inl rfl))
  -- the entry was not moved, so it was cut off
  split_ifs at hgone ⊢
  · exact absurd (mem_keys (TimeIndex.mem_erase.mpr ⟨ha, hadr⟩)) hgone
  · have hcut : a ∉ (m.peersGray.trim p2pLocalGrayPeerlistLimit).entries := fun hkept =>
      hgone (mem_keys (TimeIndex.mem_erase.mpr ⟨hkept, hadr⟩))
    obtain ⟨hover, hold⟩ := dropped_of_trim ha hcut
    exact ⟨hover, fun b hb _ => hold b (TimeIndex.mem_erase.mp hb).1⟩

/-- Appending to the gray list keeps all of its addresses, and cuts the white list at most. -/
theorem appendWithPeerGray_keeps (ple : PeerlistEntry) (m : PeerlistManager) :
    m.peersGray.keys ⊆ (m.appendWithPeerGray ple).peersGray.keys ∧
      ((m.appendWithPeerGray ple).peersWhite = m.peersWhite ∨
        (m.appendWithPeerGray ple).peersWhite = m.peersWhite.trim p2pLocalWhitePeerlistLimit) := by
  rcases appendWithPeerGray_cases ple m with ⟨-, heq⟩ | ⟨-, -, heq⟩
  · rw [heq]
    exact ⟨List.Subset.refl _, .inl rfl⟩
  · rw [heq]
    refine ⟨TimeIndex.keys_subset_put _ _, ?_⟩
    cases m.peersGray.contains ple.adr
    · exact .inr rfl
    · exact .inl rfl

theorem DropsOldest.of_keeps {m' : PeerlistManager} (hgray : m.peersGray.keys ⊆ m'.peersGray.keys)
    (hwhite : m'.peersWhite = m.peersWhite ∨
      m'.peersWhite = m.peersWhite.trim p2pLocalWhitePeerlistLimit) : DropsOldest m m' := by
  refine ⟨fun a ha hgone => ?_, fun a ha hgone => absurd (hgray (mem_keys ha)) hgone⟩
  rcases hwhite with hwhite | hwhite
  · rw [hwhite] at hgone
    exact absurd (mem_keys ha) hgone
  · rw [hwhite] at hgone ⊢
    obtain ⟨hover, hold⟩ := dropped_of_trim ha fun hkept => hgone (mem_keys hkept)
    exact ⟨hover, fun b hb _ => hold b hb⟩

theorem trim_trim (t : PeersIndexed) (limit : Nat) : (t.trim limit).trim limit = t.trim limit :=
  TimeIndex.trim_of_size_le (TimeIndex.size_trim.trans_le (Nat.min_le_left _ _))

theorem DropsOldest.mergePeerlist (m : PeerlistManager) (outerBs : List PeerlistEntry) :
    DropsOldest m (m.mergePeerlist outerBs) := by
  have hfold : ∀ m : PeerlistManager,
      let m' := outerBs.foldl (fun m be => m.appendWithPeerGray be) m
      m.peersGray.keys ⊆ m'.peersGray.keys ∧ m'.peersWhite.trim p2pLocalWhitePeerlistLimit =
        m.peersWhite.trim p2pLocalWhitePeerlistLimit := by
    induction outerBs with
    | nil => exact fun m => ⟨List.Subset.refl _, rfl⟩
    | cons be outerBs ih =>
      intro m
      obtain ⟨hgray, hwhite⟩ := appendWithPeerGray_keeps be m
      obtain ⟨hgray', hwhite'⟩ := ih (m.appendWithPeerGray be)
      refine ⟨List.Subset.trans hgray hgray', hwhite'.trans ?_⟩
      rcases hwhite with hwhite | hwhite
      · rw [hwhite]
      · rw [hwhite, trim_trim]
  exact .of_keeps (hfold m).1 (.inr (hfold m).2)

end PeerlistManager

inductive PeerCall where
  | mergePeerlist (outerBs : List PeerlistEntry)
  | appendWithPeerWhite (ple : PeerlistEntry)
  | appendWithPeerGray (ple : PeerlistEntry)
  | setPeerJustSeen (now : Int) (peer : UInt64) (addr : NetAddress)

namespace PeerCall

open PeerlistManager

def apply : PeerCall → PeerlistManager → PeerlistManager
  | mergePeerlist outerBs, m => m.mergePeerlist outerBs
  | appendWithPeerWhite ple, m => m.appendWithPeerWhite ple
  | appendWithPeerGray ple, m => m.appendWithPeerGray ple
  | setPeerJustSeen now peer addr, m => m.setPeerJustSeen now peer addr

/-- No new entry meets a full list. -/
def Fits : PeerCall → PeerlistManager → Prop
  | mergePeerlist outerBs, m => RoomGrayAll outerBs m
  | appendWithPeerWhite ple, m => m.RoomWhite ple
  | appendWithPeerGray ple, m => m.RoomGray ple
  | setPeerJustSeen now peer addr, m => m.RoomWhite ⟨addr, peer, now⟩

variable {m : PeerlistManager}

theorem apply_inLimits_iff (h : InLimits m) (c : PeerCall) : InLimits (c.apply m) ↔ c.Fits m := by
  cases c with
  | mergePeerlist outerBs => exact mergePeerlist_inLimits_iff h outerBs
  | appendWithPeerWhite ple => exact appendWithPeerWhite_inLimits_iff h ple
  | appendWithPeerGray ple => exact appendWithPeerGray_inLimits_iff h ple
  | setPeerJustSeen now peer addr => exact appendWithPeerWhite_inLimits_iff h _

theorem apply_tidy (h : Tidy m) (c : PeerCall) : Tidy (c.apply m) := by
  cases c with
  | mergePeerlist outerBs => exact h.mergePeerlist outerBs
  | appendWithPeerWhite ple => exact h.appendWithPeerWhite ple
  | appendWithPeerGray ple => exact h.appendWithPeerGray ple
  | setPeerJustSeen now peer addr => exact h.appendWithPeerWhite _

theorem apply_dropsOldest (m : PeerlistManager) (c : PeerCall) : DropsOldest m (c.apply m) := by
  cases c with
  | mergePeerlist outerBs => exact .mergePeerlist m outerBs
  | appendWithPeerWhite ple => exact .appendWithPeerWhite m ple
  | appendWithPeerGray ple =>
    obtain ⟨hgray, hwhite⟩ := appendWithPeerGray_keeps ple m
    exact .of_keeps hgray hwhite
  | setPeerJustSeen now peer addr => exact .appendWithPeerWhite m _

/-- What holds of each call of a run and the state it meets. -/
def Throughout (P : PeerlistManager → PeerCall → Prop) : PeerlistManager → List PeerCall → Prop
  | _, [] => True
  | m, c :: calls => P m c ∧ Throughout P (c.apply m) calls

/-- The lists are within their limits after the call, no address is in both, none is one that
is not allowed, and only the oldest entries of a list over its limit were dropped. -/
def KeepsOrder (m : PeerlistManager) (c : PeerCall) : Prop :=
  InLimits (c.apply m) ∧ Tidy (c.apply m) ∧ DropsOldest m (c.apply m)

theorem throughout_keepsOrder_iff (hlimits : InLimits m) (htidy : Tidy m) :
    Throughout KeepsOrder m calls ↔ Throughout (fun m c => c.Fits m) m calls := by
  induction calls generalizing m with
  | nil => exact Iff.rfl
  | cons c calls ih =>
    have htidy' := apply_tidy htidy c
    have hstep := apply_inLimits_iff hlimits c
    constructor
    · rintro ⟨⟨hlimits', -, -⟩, hrest⟩
      exact ⟨hstep.mp hlimits', (ih hlimits' htidy').mp hrest⟩
    · rintro ⟨hfits, hrest⟩
      have hlimits' := hstep.mpr hfits
      exact ⟨⟨hlimits', htidy', apply_dropsOldest m c⟩, (ih hlimits' htidy').mpr hrest⟩

theorem Throughout.inLimits (h : Throughout KeepsOrder m calls) (hlimits : InLimits m) :
    InLimits (calls.foldl (fun m c => c.apply m) m) := by
  induction calls generalizing m with
  | nil => exact hlimits
  | cons c calls ih => exact ih h.2 h.1.1

theorem Throughout.size_white_le {allowLocalIp : Bool}
    (h : Throughout KeepsOrder (init allowLocalIp) calls) :
    (calls.foldl (fun m c => c.apply m) (init allowLocalIp)).peersWhite.size ≤
      p2pLocalWhitePeerlistLimit :=
  (h.inLimits ⟨Nat.zero_le _, Nat.zero_le _⟩).1

theorem size_white_of_fresh {peers : List PeerlistEntry}
    (hallowed : ∀ e ∈ peers, m.isIpAllowed e.adr.ip = true) (hnodup : (peers.map (·.adr)).Nodup)
    (hfresh : ∀ e ∈ peers, e.adr ∉ m.peersWhite.keys) :
    ((peers.map appendWithPeerWhite).foldl (fun m c => c.apply m) m).peersWhite.size =
      m.peersWhite.size + peers.length := by
  induction peers generalizing m with
  | nil => rfl
  | cons e peers ih =>
    obtain ⟨hother, hnodup⟩ := List.nodup_cons.mp hnodup
    have hnew : m.peersWhite.contains e.adr = false := by
      rw [← Bool.not_eq_true, TimeIndex.contains_iff]
      exact hfresh e List.mem_cons_self
    rcases appendWithPeerWhite_cases e m with ⟨hno, -⟩ | ⟨-, heq⟩
    · rw [hallowed e List.mem_cons_self] at hno
      cases hno
    · have hstep : (appendWithPeerWhite e).apply m = _ := heq
      rw [List.map_cons, List.foldl_cons, hstep, ih ?_ hnodup ?_]
      · dsimp only
        rw [TimeIndex.size_put, hnew, List.length_cons, if_neg Bool.false_ne_true]
        omega
      · exact fun e' he' => hallowed e' (List.mem_cons_of_mem _ he')
      · intro e' he' hmem
        obtain ⟨a, ha, hadr⟩ := List.mem_map.mp hmem
        rcases TimeIndex.mem_put.mp ha with rfl | ⟨ha, -⟩
        · exact hother (List.mem_map.mpr ⟨e', he', hadr.symm⟩)
        · exact hfresh e' (List.mem_cons_of_mem _ he') (hadr ▸ mem_keys ha)

/-- Peers at the ports of one address. -/
def samplePeers (n : Nat) : List PeerlistEntry :=
  (List.range n).map fun port => ⟨⟨0x04030201, UInt32.ofNat port⟩, 0, 0⟩

theorem nodup_samplePeers (hn : n ≤ UInt32.size) : ((samplePeers n).map (·.adr)).Nodup := by
  rw [samplePeers, List.map_map]
  refine List.Nodup.map_on (fun a ha b hb hab => ?_) List.nodup_range
  have hports : UInt32.ofNat a = UInt32.ofNat b := congrArg NetAddress.port hab
  have hnat := congrArg UInt32.toNat hports
  rw [UInt32.toNat_ofNat', UInt32.toNat_ofNat'] at hnat
  rw [List.mem_range] at ha hb
  rwa [Nat.mod_eq_of_lt (ha.trans_le hn), Nat.mod_eq_of_lt (hb.trans_le hn)] at hnat

/-- The calls that append them to the white list. -/
def sampleCalls (n : Nat) : List PeerCall := (samplePeers n).map appendWithPeerWhite

def sampleManager (n : Nat) : PeerlistManager :=
  (sampleCalls n).foldl (fun m c => c.apply m) (init false)

theorem size_sampleManager (hn : n ≤ UInt32.size) : (sampleManager n).peersWhite.size = n := by
  have hip : (init false).isIpAllowed 0x04030201 = true := by decide
  refine (size_white_of_fresh ?_ (nodup_samplePeers hn) ?_).trans ?_
  · intro e he
    obtain ⟨port, -, rfl⟩ := List.mem_map.mp he
    exact hip
  · intro e _ hmem
    cases hmem
  · rw [samplePeers, List.length_map, List.length_range]
    exact Nat.zero_add n

/-- One white peer more than the limit. -/
theorem white_over_limit_of_sampleCalls :
    (sampleManager (p2pLocalWhitePeerlistLimit + 1)).peersWhite.size =
        p2pLocalWhitePeerlistLimit + 1 ∧
      ¬ Throughout KeepsOrder (init false) (sampleCalls (p2pLocalWhitePeerlistLimit + 1)) := by
  have hsize : (sampleManager (p2pLocalWhitePeerlistLimit + 1)).peersWhite.size =
      p2pLocalWhitePeerlistLimit + 1 := size_sampleManager (by decide)
  exact ⟨hsize, mt Throughout.size_white_le (Nat.not_le_of_lt (Nat.lt_of_succ_le hsize.ge))⟩

/-- A list stays within its limit exactly as long as no new entry meets it full. The rest
holds in every run. -/
theorem peerlists_keepOrder_iff (allowLocalIp : Bool) (calls : List PeerCall) :
    (Throughout (fun m c => Tidy (c.apply m) ∧ DropsOldest m (c.apply m)) (init allowLocalIp) calls) ∧
    (Throughout KeepsOrder (init allowLocalIp) calls ↔
      Throughout (fun m c => c.Fits m) (init allowLocalIp) calls) := by
  refine ⟨?_, throughout_keepsOrder_iff ⟨Nat.zero_le _, Nat.zero_le _⟩ (Tidy.init _)⟩
  have hall : ∀ m, Tidy m →
      Throughout (fun m c => Tidy (c.apply m) ∧ DropsOldest m (c.apply m)) m calls := by
    induction calls with
    | nil => exact fun _ _ => trivial
    | cons c calls ih =>
      intro m htidy
      have htidy' := apply_tidy htidy c
      exact ⟨⟨htidy', apply_dropsOldest m c⟩, ih _ htidy'⟩
  exact hall _ (Tidy.init _)

end PeerCall

namespace PeerlistManager

/-- The loop over the white list, newest first.  The count is compared after the entry has
been appended, and before it is raised. -/
def peerlistHeadLoop (depth : UInt32) : UInt32 → List PeerlistEntry → List PeerlistEntry
  | _, [] => []
  | cnt, vl :: rest =>
    if vl.lastSeen = 0 then peerlistHeadLoop depth cnt rest
    else if depth < cnt then [vl]
    else vl :: peerlistHeadLoop depth (cnt + 1) rest

def getPeerlistHead (bsHead : List PeerlistEntry) (depth : UInt32) (m : PeerlistManager) :
    List PeerlistEntry :=
  bsHead ++ peerlistHeadLoop depth 0 m.peersWhite.entries.reverse

/-- The white peers that were seen at some time, the last seen one first. -/
def seenPeers (m : PeerlistManager) : List PeerlistEntry :=
  m.peersWhite.entries.reverse.filter fun vl => decide (vl.lastSeen ≠ 0)

theorem seenPeers_sorted (m : PeerlistManager) :
    m.seenPeers.Pairwise fun a b => b.lastSeen ≤ a.lastSeen :=
  (List.pairwise_reverse.mpr m.peersWhite.sorted).filter _

/-- With the greatest depth the loop never ends early; else it takes two entries more than
it should. -/
theorem peerlistHeadLoop_eq {depth cnt : UInt32} (hcnt : cnt.toNat ≤ depth.toNat + 1)
    (l : List PeerlistEntry) :
    peerlistHeadLoop depth cnt l =
      if depth.toNat + 1 = 2 ^ 32 then l.filter fun vl => decide (vl.lastSeen ≠ 0)
      else (l.filter fun vl => decide (vl.lastSeen ≠ 0)).take (depth.toNat + 2 - cnt.toNat) := by
  have hdepth := depth.toNat_lt
  induction l generalizing cnt with
  | nil => simp [peerlistHeadLoop]
  | cons vl l ih =>
    by_cases hseen : vl.lastSeen = 0
    · rw [peerlistHeadLoop, if_pos hseen, ih hcnt, List.filter_cons_of_neg (by simpa using hseen)]
    rw [peerlistHeadLoop, if_neg hseen, List.filter_cons_of_pos (by simpa using hseen)]
    by_cases hmax : depth.toNat + 1 = 2 ^ 32
    · have hnot : ¬ depth < cnt := by
        rw [UInt32.lt_iff_toNat_lt]
        have := cnt.toNat_lt
        omega
      have hnext : (cnt + 1).toNat ≤ depth.toNat + 1 := by
        have := (cnt + 1).toNat_lt
        omega
      rw [if_neg hnot, if_pos hmax, ih hnext, if_pos hmax]
    · rw [if_neg hmax]
      by_cases hlt : depth < cnt
      · have hone : depth.toNat + 2 - cnt.toNat = 1 := by
          have := UInt32.lt_iff_toNat_lt.mp hlt
          omega
        rw [if_pos hlt, hone, List.take_succ_cons, List.take_zero]
      · have hle := UInt32.le_iff_toNat_le.mp (UInt32.not_lt.mp hlt)
        have hnext : (cnt + 1).toNat = cnt.toNat + 1 := by
          rw [UInt32.toNat_add, UInt32.toNat_one, Nat.mod_eq_of_lt (by omega)]
        have hsucc : depth.toNat + 2 - cnt.toNat = depth.toNat + 2 - (cnt + 1).toNat + 1 := by
          omega
        rw [if_neg hlt, ih (by omega), if_neg hmax, hsucc, List.take_succ_cons]

/-- The entries are the most recently seen ones, newest first, and not too many. -/
structure NewestSeen (m : PeerlistManager) (depth : UInt32) (head : List PeerlistEntry) : Prop where
  length_le : head.length ≤ depth.toNat
  sorted : head.Pairwise fun a b => b.lastSeen ≤ a.lastSeen
  seen : ∀ a ∈ head, a ∈ m.peersWhite.entries ∧ a.lastSeen ≠ 0
  newest : ∀ a ∈ head, ∀ b ∈ m.peersWhite.entries, b.lastSeen ≠ 0 → b ∉ head →
    b.lastSeen ≤ a.lastSeen

theorem getPeerlistHead_eq (bsHead : List PeerlistEntry) (depth : UInt32) (m : PeerlistManager) :
    ∃ n, getPeerlistHead bsHead depth m = bsHead ++ m.seenPeers.take n ∧
      (m.seenPeers.length ≤ n ∨ n = depth.toNat + 2) := by
  rw [getPeerlistHead, peerlistHeadLoop_eq (by simp)]
  split_ifs
  · exact ⟨m.seenPeers.length, by rw [List.take_length, seenPeers], .inl (Nat.le_refl _)⟩
  · exact ⟨depth.toNat + 2, by simp [seenPeers], .inr rfl⟩

theorem mem_seenPeers {m : PeerlistManager} :
    a ∈ m.seenPeers ↔ a ∈ m.peersWhite.entries ∧ a.lastSeen ≠ 0 := by
  simp [seenPeers]

theorem newestSeen_take {m : PeerlistManager} {depth : UInt32}
    (hlength : (m.seenPeers.take n).length ≤ depth.toNat) :
    NewestSeen m depth (m.seenPeers.take n) := by
  have hsorted := m.seenPeers_sorted
  refine ⟨hlength, hsorted.sublist (List.take_sublist _ _),
    fun a ha => mem_seenPeers.mp (List.mem_of_mem_take ha), fun a ha b hb hseen hnot => ?_⟩
  have hb' : b ∈ m.seenPeers.take n ++ m.seenPeers.drop n := by
    rw [List.take_append_drop]
    exact mem_seenPeers.mpr ⟨hb, hseen⟩
  rw [← List.take_append_drop n m.seenPeers] at hsorted
  exact (List.pairwise_append.mp hsorted).2.2 a ha b ((List.mem_append.mp hb').resolve_left hnot)

/-- The head of the white list has the right entries in the right order.  There are not too
many of them exactly if there are not more to choose from. -/
theorem getPeerlistHead_newest_iff (bsHead : List PeerlistEntry) (depth : UInt32)
    (m : PeerlistManager) :
    (∃ head, getPeerlistHead bsHead depth m = bsHead ++ head ∧ NewestSeen m depth head) ↔
      m.seenPeers.length ≤ depth.toNat := by
  obtain ⟨n, heq, hn⟩ := getPeerlistHead_eq bsHead depth m
  have hlength : (m.seenPeers.take n).length = min n m.seenPeers.length := List.length_take
  constructor
  · rintro ⟨head, hhead, hnewest⟩
    obtain rfl : m.seenPeers.take n = head := List.append_cancel_left (heq.symm.trans hhead)
    have := hnewest.length_le
    omega
  · intro hle
    exact ⟨_, heq, newestSeen_take (by omega)⟩

def p2pDefaultPeersInHandshake : UInt32 := 250

/-- Peers at the ports of one address that were all seen at the same time. -/
def sampleSeenPeers : List PeerlistEntry :=
  (PeerCall.samplePeers 252).map fun e => { e with lastSeen := 1 }

theorem sampleSeenPeers_sorted :
    sampleSeenPeers.Pairwise fun a b => a.lastSeen ≤ b.lastSeen :=
  List.pairwise_map.mpr (List.pairwise_of_forall fun _ _ => le_refl _)

theorem sampleSeenPeers_unique : (sampleSeenPeers.map (·.adr)).Nodup := by
  rw [sampleSeenPeers, List.map_map]
  exact PeerCall.nodup_samplePeers (by decide)

def sampleSeenManager : PeerlistManager :=
  { init false with peersWhite := ⟨sampleSeenPeers, sampleSeenPeers_sorted, sampleSeenPeers_unique⟩ }

/-- A handshake names two peers more than it should. -/
theorem head_over_depth_of_sampleSeenManager :
    (getPeerlistHead [] p2pDefaultPeersInHandshake sampleSeenManager).length =
        p2pDefaultPeersInHandshake.toNat + 2 ∧
      ¬ NewestSeen sampleSeenManager p2pDefaultPeersInHandshake
        (getPeerlistHead [] p2pDefaultPeersInHandshake sampleSeenManager) := by
  have hlength : (getPeerlistHead [] p2pDefaultPeersInHandshake sampleSeenManager).length =
      p2pDefaultPeersInHandshake.toNat + 2 := by
    decide +kernel
  refine ⟨hlength, fun hnewest => ?_⟩
  have := hnewest.length_le
  omega

end PeerlistManager

end Pebblecoin
