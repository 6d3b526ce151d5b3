import Pebblecoin.Ledger

/-!
Purging takes back exactly what adding did, input by input and transaction by
transaction.
-/

namespace Pebblecoin

open Containers Control

variable {ds ds' : Delegates} {id : DelegateId} {info : DelegateInfo} {enforce popping : Bool}
  {inst : VoteInstance} {amount : UInt64} {height : Nat} {votes : DelegateVotes}
  {l l' : InputTables} {crypto : Crypto} {inp : TxIn}

theorem not_maxVote_lt (x : UInt64) : ¬ maxVote < x := by
  have hmax : maxVote.toNat = 2 ^ 64 - 1 := rfl
  have := x.toNat_lt
  rw [UInt64.lt_iff_toNat_lt]
  omega

theorem le_maxVote (x : UInt64) : x ≤ maxVote :=
  UInt64.not_lt.mp (not_maxVote_lt x)

theorem insert_insert_of_find {info' : DelegateInfo} (h : ds.find? id = some info) :
    (ds.insert id info').insert id info = ds := by
  ext1 k
  by_cases hk : id = k
  · subst hk
    rw [OrdMap.find?_insert_self, h]
  · rw [OrdMap.find?_insert_ne _ _ hk, OrdMap.find?_insert_ne _ _ hk]

theorem unapplyVote_eq_true {expected : UInt64} {item : DelegateId × UInt64}
    (h : unapplyVote expected enforce item ds = (true, ds')) :
    ∃ info total, ds.find? item.1 = some info ∧
      total.toNat + item.2.toNat = info.totalVotes.toNat ∧
      ds' = ds.insert item.1 { info with totalVotes := total } := by
  unfold unapplyVote at h
  split at h
  · simp at h
  · rename_i info hinfo
    split_ifs at h
    · simp at h
    split at h
    · simp at h
    · rename_i total htotal
      exact ⟨info, total, hinfo, subAmount_eq_some_iff.mp htotal, by simpa using h.symm⟩

theorem reapplyVote_unapplyVote {expected : UInt64} {item : DelegateId × UInt64}
    (h : unapplyVote expected enforce item ds = (true, ds')) :
    reapplyVote item ds' = (true, ds) := by
  obtain ⟨info, total, hinfo, htotal, rfl⟩ := unapplyVote_eq_true h
  have hsum : total + item.2 = info.totalVotes := by
    have := info.totalVotes.toNat_lt
    rw [← UInt64.toNat_inj, UInt64.toNat_add]
    omega
  have hover : addAmountWouldOverflow total item.2 = false := by
    have := info.totalVotes.toNat_lt
    rw [Bool.eq_false_iff]
    intro hover
    have := addAmountWouldOverflow_iff.mp hover
    omega
  simp only [reapplyVote, OrdMap.find?_insert_self, hover, hsum, le_maxVote]
  simp [insert_insert_of_find hinfo]

theorem reapplyVotes_unapplyVotes (h : unapplyVotes inst enforce ds = (true, ds')) :
    reapplyVotes inst ds' = (true, ds) := by
  have hrun := allApply_undo (unapplyVote inst.expectedVote enforce)
    (G := fun _ _ => True) (C := fun _ _ => True) (fun _ _ _ _ => trivial) reapplyVote
    (fun _ hstep => reapplyVote_unapplyVote hstep) (List.pairwise_of_forall fun _ _ => trivial)
    (fun _ _ => trivial) h
  rwa [List.reverse_reverse] at hrun

theorem onLastVote_reapply_unapply {history : List VoteInstance}
    (h : onLastVote history (unapplyVotes · enforce) ds = (true, ds')) :
    onLastVote history reapplyVotes ds' = (true, ds) := by
  unfold onLastVote at h ⊢
  split at h
  · obtain rfl : ds = ds' := by simpa using h
    rfl
  · exact reapplyVotes_unapplyVotes h

/-- The delegate side of one application. -/
def applyVoteTotal (amount : UInt64) (id : DelegateId) (ds : Delegates) : Bool × Delegates :=
  if addAmountWouldOverflow (ds.get id).totalVotes amount then (false, ds)
  else (true, ds.modify id fun info => { info with totalVotes := info.totalVotes + amount })

theorem applyVote_eq (amount : UInt64) (id : DelegateId)
    (s : OrdMap DelegateId UInt64 × Delegates) :
    applyVote amount id s =
      if addAmountWouldOverflow (s.2.get id).totalVotes amount then (false, s)
      else (true, s.1.insert id amount, (applyVoteTotal amount id s.2).2) := by
  simp only [applyVote, applyVoteTotal, if_neg (not_maxVote_lt _)]
  split_ifs with h <;> simp

theorem allApply_applyVote {ids : List DelegateId} {rec rec' : OrdMap DelegateId UInt64}
    (h : allApply (applyVote amount) ids (rec, ds) = (true, rec', ds')) :
    allApply (applyVoteTotal amount) ids ds = (true, ds') ∧
      rec' = ids.foldl (fun m id => m.insert id amount) rec := by
  induction ids generalizing rec ds with
  | nil =>
    obtain ⟨rfl, rfl⟩ : rec = rec' ∧ ds = ds' := by simpa using h
    exact ⟨rfl, rfl⟩
  | cons id ids ih =>
    obtain ⟨⟨rec₁, ds₁⟩, hstep, hrest⟩ := allApply_cons_eq_true_iff.mp h
    rw [applyVote_eq] at hstep
    split_ifs at hstep with hover
    · simp at hstep
    have htotal : applyVoteTotal amount id ds = (true, (applyVoteTotal amount id ds).2) := by
      simp [applyVoteTotal, hover]
    obtain ⟨rfl, rfl⟩ : rec.insert id amount = rec₁ ∧ (applyVoteTotal amount id ds).2 = ds₁ := by
      simpa using hstep
    obtain ⟨hds, hrec⟩ := ih hrest
    exact ⟨allApply_cons_eq_true_iff.mpr ⟨_, htotal, hds⟩, hrec⟩

theorem foldl_insert_toList {ids : List DelegateId} (hsorted : ids.Pairwise (· < ·)) :
    (ids.foldl (fun m id => OrdMap.insert m id amount) OrdMap.empty).toList =
      ids.map (·, amount) := by
  have hfind : ∀ (ids : List DelegateId) (m : OrdMap DelegateId UInt64) (k : DelegateId),
      (ids.foldl (fun m id => m.insert id amount) m).find? k =
        if k ∈ ids then some amount else m.find? k := by
    intro ids
    induction ids with
    | nil => simp
    | cons id ids ih =>
      intro m k
      rw [List.foldl_cons, ih, OrdMap.find?_insert]
      by_cases hk : k ∈ ids
      · simp [hk]
      · simp [hk, eq_comm]
  have hpairs : (ids.map (·, amount)).Pairwise fun a b => a.1 < b.1 := List.pairwise_map.mpr hsorted
  have heq : ids.foldl (fun m id => OrdMap.insert m id amount) OrdMap.empty =
      ⟨ids.map (·, amount), hpairs⟩ := by
    ext1 k
    rw [hfind, OrdMap.find?_empty]
    apply Option.ext
    intro v
    rw [← OrdMap.mem_toList]
    by_cases hk : k ∈ ids <;> simp [hk, eq_comm]
  rw [heq]

theorem Delegates.get_of_find (h : ds.find? id = some info) : ds.get id = info := by
  rw [Delegates.get, h, Option.getD_some]

theorem Delegates.contains_iff : ds.contains id = true ↔ ∃ info, ds.find? id = some info := by
  rw [OrdMap.contains, Option.isSome_iff_exists]

theorem applyVotes_eq_true (h : applyVotes height popping amount votes ds = (true, inst, ds')) :
    inst.votingForHeight = height ∧ inst.expectedVote = amount ∧
      inst.votes.toList = votes.elems.map (·, amount) ∧
      allApply (applyVoteTotal amount) votes.elems ds = (true, ds') := by
  unfold applyVotes at h
  split_ifs at h
  · simp at h
  · obtain ⟨hok, rfl, rfl⟩ := by simpa using h
    obtain ⟨hds, hrec⟩ := allApply_applyVote (Prod.ext_iff.mpr ⟨hok, rfl⟩)
    refine ⟨rfl, rfl, ?_, hds⟩
    rw [hrec]
    exact foldl_insert_toList votes.elems_sorted

theorem applyVoteTotal_contains {k : DelegateId} (h : applyVoteTotal amount id ds = (true, ds'))
    (hk : ds.contains k = true) : ds'.contains k = true := by
  unfold applyVoteTotal at h
  split_ifs at h
  · simp at h
  · obtain rfl := (Prod.mk.inj h).2
    rw [Delegates.modify, OrdMap.contains, OrdMap.find?_insert]
    split_ifs
    · rfl
    · exact hk

theorem unapplyVote_applyVoteTotal (hid : ds.contains id = true)
    (h : applyVoteTotal amount id ds = (true, ds')) :
    unapplyVote amount true (id, amount) ds' = (true, ds) := by
  obtain ⟨info, hinfo⟩ := Delegates.contains_iff.mp hid
  unfold applyVoteTotal at h
  rw [Delegates.modify, Delegates.get_of_find hinfo] at h
  split_ifs at h with hover
  · simp at h
  obtain rfl := (Prod.mk.inj h).2
  have hsub : subAmount (info.totalVotes + amount) amount = some info.totalVotes := by
    rw [subAmount_eq_some_iff, UInt64.toNat_add]
    have hlt : ¬ 2 ^ 64 ≤ info.totalVotes.toNat + amount.toNat := fun hge =>
      hover (addAmountWouldOverflow_iff.mpr hge)
    omega
  simp only [unapplyVote, OrdMap.find?_insert_self, hsub]
  simp [insert_insert_of_find hinfo]

theorem unapplyVotes_applyVotes (hvotes : ∀ id ∈ votes.elems, ds.contains id = true)
    (h : applyVotes height popping amount votes ds = (true, inst, ds')) :
    unapplyVotes inst true ds' = (true, ds) := by
  obtain ⟨-, hexpected, hlist, hrun⟩ := applyVotes_eq_true h
  have hundo := allApply_undo (applyVoteTotal amount) (G := fun id ds => ds.contains id = true)
    (C := fun _ _ => True) (fun _ _ hb hstep => applyVoteTotal_contains hstep hb)
    (fun id => unapplyVote amount true (id, amount))
    (fun hid hstep => unapplyVote_applyVoteTotal hid hstep)
    (List.pairwise_of_forall fun _ _ => trivial) hvotes hrun
  rw [unapplyVotes, hexpected, hlist, ← List.map_reverse, allApply_map]
  exact hundo

def DelegateInfo.withoutVotes (info : DelegateInfo) : DelegateInfo :=
  { info with totalVotes := 0 }

/-- Two tables with the same delegates that differ in the vote totals only. -/
def Delegates.SameButVotes (ds ds' : Delegates) : Prop :=
  ∀ k, (ds.find? k).map DelegateInfo.withoutVotes = (ds'.find? k).map DelegateInfo.withoutVotes

namespace Delegates.SameButVotes

theorem refl (ds : Delegates) : ds.SameButVotes ds := fun _ => rfl

theorem trans {ds₁ ds₂ ds₃ : Delegates} (h : ds₁.SameButVotes ds₂) (h' : ds₂.SameButVotes ds₃) :
    ds₁.SameButVotes ds₃ :=
  fun k => (h k).trans (h' k)

theorem contains_eq (h : ds.SameButVotes ds') (k : DelegateId) :
    ds.contains k = ds'.contains k := by
  rw [OrdMap.contains, OrdMap.contains, ← Option.isSome_map (f := DelegateInfo.withoutVotes),
    h k, Option.isSome_map]

theorem insert (total : UInt64) (h : ds.find? id = some info) :
    ds.SameButVotes (OrdMap.insert ds id { info with totalVotes := total }) := by
  intro k
  rw [OrdMap.find?_insert]
  split_ifs with hk
  · subst hk
    rw [h]
    rfl
  · rfl

end Delegates.SameButVotes

theorem unapplyVotes_sameButVotes (h : unapplyVotes inst enforce ds = (true, ds')) :
    ds.SameButVotes ds' := by
  refine allApply_keeps_of_true (fun item _ s s' hs hstep => hs.trans ?_)
    (Delegates.SameButVotes.refl ds) h
  obtain ⟨info, total, hinfo, -, rfl⟩ := unapplyVote_eq_true hstep
  exact Delegates.SameButVotes.insert total hinfo

theorem onLastVote_unapply_sameButVotes {history : List VoteInstance}
    (h : onLastVote history (unapplyVotes · enforce) ds = (true, ds')) : ds.SameButVotes ds' := by
  unfold onLastVote at h
  split at h
  · obtain rfl : ds = ds' := by simpa using h
    exact Delegates.SameButVotes.refl ds
  · exact unapplyVotes_sameButVotes h

theorem applyVotes_sameButVotes (hvotes : ∀ id ∈ votes.elems, ds.contains id = true)
    (h : applyVotes height popping amount votes ds = (true, inst, ds')) : ds.SameButVotes ds' := by
  obtain ⟨-, -, -, hrun⟩ := applyVotes_eq_true h
  refine allApply_keeps_of_true (fun id hid s s' hs hstep => hs.trans ?_)
    (Delegates.SameButVotes.refl ds) hrun
  obtain ⟨info, hinfo⟩ := Delegates.contains_iff.mp (hs.contains_eq id ▸ hvotes id hid)
  unfold applyVoteTotal at hstep
  rw [Delegates.modify, Delegates.get_of_find hinfo] at hstep
  split_ifs at hstep
  · simp at hstep
  · obtain rfl := (Prod.mk.inj hstep).2
    exact Delegates.SameButVotes.insert _ hinfo

/-- Key image an input spends or votes with. -/
def TxIn.keyImage? : TxIn → Option KeyImage
  | .toKey inp => some inp.kImage
  | .vote inp => some inp.ink.kImage
  | _ => none

/-- The kinds of input that accepted transactions have. -/
def TxIn.engaged : TxIn → Bool
  | .gen _ | .toKey _ | .registerDelegate _ | .vote _ => true
  | _ => false

namespace InputTables

/-- What the checks before adding guarantee for an input: a vote has the next
sequence number of its key image and goes to existing delegates. -/
def Checked (inp : TxIn) (l : InputTables) : Prop :=
  inp.engaged = true ∧ ∀ v, inp = .vote v →
    v.seq.toNat = (l.voteHistories v.ink.kImage).length ∧
      ∀ id ∈ v.votes.elems, l.delegates.contains id = true

theorem addToKey_eq_true {inp : TxinToKey} (h : addToKey inp l = (true, l')) :
    ∃ ds, onLastVote (l.voteHistories inp.kImage) (unapplyVotes · false) l.delegates =
        (true, ds) ∧ l.spentKeys inp.kImage = false ∧
      l' = { l with
        delegates := ds
        spentKeys := Function.update l.spentKeys inp.kImage true } := by
  unfold addToKey at h
  split at h
  · simp at h
  · rename_i ds hds
    split_ifs at h with hspent
    · simp at h
    · exact ⟨ds, hds, by simpa using hspent, by simpa using h.symm⟩

theorem purgeToKey_addToKey {inp : TxinToKey} (h : addToKey inp l = (true, l')) :
    purgeToKey inp l' = (true, l) := by
  obtain ⟨ds, hds, hspent, rfl⟩ := addToKey_eq_true h
  have hre := onLastVote_reapply_unapply hds
  simp only [purgeToKey, Function.update_self, if_true, hre, Function.update_idem, ← hspent,
    Function.update_eq_self]

theorem addRegisterDelegate_eq_true {inp : TxinRegisterDelegate}
    (h : addRegisterDelegate crypto inp l = (true, l')) :
    l.delegates.find? inp.delegateId = none ∧
      l' = { l with delegates := l.delegates.insert inp.delegateId (newDelegate crypto inp) } := by
  unfold addRegisterDelegate at h
  split at h
  · simp at h
  · rename_i hnone
    exact ⟨hnone, by simpa using h.symm⟩

theorem purgeRegisterDelegate_addRegisterDelegate {inp : TxinRegisterDelegate}
    (h : addRegisterDelegate crypto inp l = (true, l')) :
    purgeRegisterDelegate inp l' = (true, l) := by
  obtain ⟨hnone, rfl⟩ := addRegisterDelegate_eq_true h
  have herase : (l.delegates.insert inp.delegateId (newDelegate crypto inp)).erase
      inp.delegateId = l.delegates := by
    ext1 k
    rw [OrdMap.find?_erase, OrdMap.find?_insert]
    split_ifs with hk
    · rw [← hk, hnone]
    · rfl
  simp only [purgeRegisterDelegate, OrdMap.find?_insert_self, herase]

theorem addVote_eq_true {inp : TxinVote} (h : addVote height popping inp l = (true, l')) :
    ∃ ds ds' inst, l.spentKeys inp.ink.kImage = false ∧
      onLastVote (l.voteHistories inp.ink.kImage) (unapplyVotes · false) l.delegates =
        (true, ds) ∧
      applyVotes height popping inp.ink.amount inp.votes ds = (true, inst, ds') ∧
      l' = { l with
        delegates := ds'
        voteHistories := Function.update l.voteHistories inp.ink.kImage
          (l.voteHistories inp.ink.kImage ++ [inst]) } := by
  simp only [addVote] at h
  split_ifs at h with hspent
  · simp at h
  split at h
  · simp at h
  · rename_i ds hds
    split at h
    · simp at h
    · rename_i inst ds' happly
      exact ⟨ds, ds', inst, by simpa using hspent, hds, happly, by simpa using h.symm⟩

theorem purgeVote_addVote {inp : TxinVote} (hchecked : Checked (.vote inp) l)
    (h : addVote height popping inp l = (true, l')) : purgeVote inp l' = (true, l) := by
  obtain ⟨hseq, hvotes⟩ := hchecked.2 inp rfl
  obtain ⟨ds, ds', inst, -, hun, happly, rfl⟩ := addVote_eq_true h
  obtain ⟨-, hexpected, hlist, -⟩ := applyVotes_eq_true happly
  have hsame := onLastVote_unapply_sameButVotes hun
  have hundo : unapplyVotes inst true ds' = (true, ds) :=
    unapplyVotes_applyVotes (fun id hid => hsame.contains_eq id ▸ hvotes id hid) happly
  have hre := onLastVote_reapply_unapply hun
  -- the recorded votes are those of the input
  have hrecorded : inst.votes.toList.any (fun item => !inp.votes.contains item.1) = false := by
    rw [List.any_eq_false, hlist]
    intro item hitem
    obtain ⟨id, hid, rfl⟩ := List.mem_map.mp hitem
    simpa using OrdSet.mem_elems.mp hid
  have hseen : inp.votes.elems.any (fun id => !inst.votes.contains id) = false := by
    rw [List.any_eq_false]
    intro id hid
    have hmem : (id, inp.ink.amount) ∈ inst.votes.toList := by
      rw [hlist]
      exact List.mem_map.mpr ⟨id, hid, rfl⟩
    simp [OrdMap.contains, OrdMap.mem_toList.mp hmem]
  simp only [purgeVote, Function.update_self, List.getLast?_concat, List.length_append,
    List.length_singleton, Nat.add_sub_cancel, hseq, hexpected, hrecorded, hseen, hundo,
    List.dropLast_concat, hre, Function.update_idem, Function.update_eq_self, ne_eq,
    not_true_eq_false, Bool.false_eq_true, if_false]

theorem purgeInput_addInput (hchecked : Checked inp l)
    (h : addInput crypto height popping inp l = (true, l')) : purgeInput inp l' = (true, l) := by
  cases inp with
  | gen _ => simpa [addInput, purgeInput, eq_comm] using h
  | toKey inp => exact purgeToKey_addToKey h
  | registerDelegate inp => exact purgeRegisterDelegate_addRegisterDelegate h
  | vote inp => exact purgeVote_addVote hchecked h
  | _ => exact absurd hchecked.1 (by simp [TxIn.engaged])

/-- What adding an input that passed the checks changes; of the delegates that it finds only
the votes. -/
inductive InputAdded (crypto : Crypto) (l : InputTables) : TxIn → InputTables → Prop
  | gen (height : UInt64) : InputAdded crypto l (.gen height) l
  | toKey (inp : TxinToKey) {ds : Delegates} (hsame : l.delegates.SameButVotes ds) :
      InputAdded crypto l (.toKey inp) { l with
        delegates := ds
        spentKeys := Function.update l.spentKeys inp.kImage true }
  | registerDelegate (inp : TxinRegisterDelegate)
      (hnone : l.delegates.find? inp.delegateId = none) :
      InputAdded crypto l (.registerDelegate inp)
        { l with delegates := l.delegates.insert inp.delegateId (newDelegate crypto inp) }
  | vote (inp : TxinVote) (inst : VoteInstance) {ds : Delegates}
      (hsame : l.delegates.SameButVotes ds) :
      InputAdded crypto l (.vote inp) { l with
        delegates := ds
        voteHistories := Function.update l.voteHistories inp.ink.kImage
          (l.voteHistories inp.ink.kImage ++ [inst]) }

theorem addInput_added (hchecked : Checked inp l)
    (h : addInput crypto height popping inp l = (true, l')) : InputAdded crypto l inp l' := by
  cases inp with
  | gen height =>
    obtain rfl : l = l' := by simpa [addInput] using h
    exact .gen height
  | toKey inp =>
    obtain ⟨ds, hds, -, rfl⟩ := addToKey_eq_true h
    exact .toKey inp (onLastVote_unapply_sameButVotes hds)
  | registerDelegate inp =>
    obtain ⟨hnone, rfl⟩ := addRegisterDelegate_eq_true h
    exact .registerDelegate inp hnone
  | vote inp =>
    obtain ⟨ds, ds', inst, -, hun, happly, rfl⟩ := addVote_eq_true h
    have hsame := onLastVote_unapply_sameButVotes hun
    exact .vote inp inst (hsame.trans (applyVotes_sameButVotes
      (fun id hid => hsame.contains_eq id ▸ (hchecked.2 inp rfl).2 id hid) happly))
  | _ => exact absurd hchecked.1 (by simp [TxIn.engaged])

theorem addInput_contains (hchecked : Checked inp l)
    (h : addInput crypto height popping inp l = (true, l')) {k : DelegateId}
    (hk : l.delegates.contains k = true) : l'.delegates.contains k = true := by
  cases addInput_added hchecked h with
  | gen => exact hk
  | toKey _ hsame | vote _ _ hsame => exact hsame.contains_eq k ▸ hk
  | registerDelegate inp =>
    simp only [OrdMap.contains, OrdMap.find?_insert]
    split_ifs
    · rfl
    · exact hk

/-- Inputs of one transaction that do not share a key image. -/
def Compatible (a b : TxIn) : Prop :=
  ∀ k, a.keyImage? = some k → b.keyImage? ≠ some k

theorem addInput_voteHistories (hchecked : Checked inp l)
    (h : addInput crypto height popping inp l = (true, l')) {k : KeyImage}
    (hk : inp.keyImage? ≠ some k) : l'.voteHistories k = l.voteHistories k := by
  cases addInput_added hchecked h with
  | gen | toKey _ _ | registerDelegate => rfl
  | vote inp => exact Function.update_of_ne (fun heq => hk (by rw [heq]; rfl)) _ _

theorem Checked.of_addInput {a b : TxIn} (hcompat : Compatible a b) (ha : Checked a l)
    (hb : Checked b l) (h : addInput crypto height popping a l = (true, l')) : Checked b l' := by
  refine ⟨hb.1, fun v hv => ?_⟩
  obtain ⟨hseq, hvotes⟩ := hb.2 v hv
  subst hv
  refine ⟨?_, fun id hid => addInput_contains ha h (hvotes id hid)⟩
  rw [hseq, addInput_voteHistories ha h]
  exact fun hk => hcompat _ hk rfl

theorem purgeInputs_addInputs {vin : List TxIn} (hcompat : vin.Pairwise Compatible)
    (hchecked : ∀ inp ∈ vin, Checked inp l)
    (h : allApply (addInput crypto height popping) vin l = (true, l')) :
    allApply purgeInput vin.reverse l' = (true, l) :=
  allApply_undo (addInput crypto height popping) Checked.of_addInput purgeInput
    purgeInput_addInput hcompat hchecked h

end InputTables

namespace Ledger

theorem popOutputs_pushOutputs (tx : TransactionPrefix) (txId : Hash) (outs before : List TxOut)
    (outputs : OutputIndex) :
    popOutputs tx txId (outs.reverse ++ before)
        (pushOutputs tx txId before.length outs outputs).1 =
      popOutputs tx txId before outputs := by
  induction outs generalizing before outputs with
  | nil => rfl
  | cons out outs ih =>
    -- the head joins the outputs that are popped after the rest
    have := ih (out :: before)
      (Function.update outputs (tx.outCp before.length, out.amount)
        (outputs (tx.outCp before.length, out.amount) ++ [(txId, before.length)]))
    rw [List.reverse_cons, List.append_assoc, List.singleton_append, pushOutputs]
    rw [List.length_cons] at this
    rw [this, popOutputs]
    simp

theorem popOutputs_pushOutputs_self (tx : TransactionPrefix) (txId : Hash) (outs : List TxOut)
    (outputs : OutputIndex) :
    popOutputs tx txId outs.reverse (pushOutputs tx txId 0 outs outputs).1 = (true, outputs) := by
  simpa [popOutputs] using popOutputs_pushOutputs tx txId outs [] outputs

theorem addTransactionFromBlock_eq_added {tx : Transaction} {txId : Hash} {l l' : Ledger}
    (h : addTransactionFromBlock crypto popping tx txId height l = (.added, l')) :
    ∃ tables, allApply (InputTables.addInput crypto height popping) tx.vin l.toInputTables =
        (true, tables) ∧ l.transactions txId = none ∧
      l' =
        { toInputTables := tables
          outputs := (pushOutputs tx.toTransactionPrefix txId 0 tx.vout l.outputs).1
          transactions := Function.update l.transactions txId
            (some ⟨tx, height, 0,
              (pushOutputs tx.toTransactionPrefix txId 0 tx.vout l.outputs).2⟩) } := by
  unfold addTransactionFromBlock at h
  split at h
  · simp at h
  · rename_i tables htables
    split_ifs at h with hsome
    · simp at h
    · exact ⟨tables, htables, by simpa using hsome, by simpa using h.symm⟩

end Ledger

end Pebblecoin
