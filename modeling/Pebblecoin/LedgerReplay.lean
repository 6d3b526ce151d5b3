import Pebblecoin.TxInputCompatChecker

/-!
A ledger is what its transactions, added one after the other, make of the empty
one, apart from the statistics of the delegates.  Purging the last of them leads
back to a ledger of the others.
-/

namespace Pebblecoin

open Containers Control

variable {a b : DelegateInfo} {K : Prop} {k : DelegateId} {txId : Hash} {r : TxRecord}

def DelegateInfo.withoutCounters (info : DelegateInfo) : DelegateInfo :=
  { info with processedBlocks := 0, missedBlocks := 0, feesReceived := 0 }

theorem DelegateInfo.totalVotes_eq (h : b.withoutCounters = a.withoutCounters) :
    b.totalVotes = a.totalVotes := by
  have := congrArg DelegateInfo.totalVotes h
  exact this

/-- The second table has the delegates of the first with other statistics.  If
`J` holds it may also have blank entries, which the statistics created. -/
structure Delegates.Extends (J : Prop) (ds ds' : Delegates) : Prop where
  same : ∀ k a, ds.find? k = some a →
    ∃ b, ds'.find? k = some b ∧ b.withoutCounters = a.withoutCounters
  created : ∀ k b, ds.find? k = none → ds'.find? k = some b →
    J ∧ b.withoutCounters = DelegateInfo.zero

namespace Delegates.Extends

variable {J : Prop} {ds ds' ds'' : Delegates}

theorem refl (ds : Delegates) : Extends J ds ds where
  same _ a ha := ⟨a, ha, rfl⟩
  created _ _ hnone hsome := by rw [hnone] at hsome; cases hsome

theorem trans (h : Extends J ds ds') (h' : Extends J ds' ds'') : Extends J ds ds'' where
  same k a ha := by
    obtain ⟨b, hb, hba⟩ := h.same k a ha
    obtain ⟨c, hc, hcb⟩ := h'.same k b hb
    exact ⟨c, hc, hcb.trans hba⟩
  created k c hnone hc := by
    cases hb : ds'.find? k with
    | none => exact h'.created k c hb hc
    | some b =>
      obtain ⟨hJ, hzero⟩ := h.created k b hnone hb
      obtain ⟨c', hc', hcb⟩ := h'.same k b hb
      obtain rfl : c = c' := Option.some.inj (hc.symm.trans hc')
      exact ⟨hJ, hcb.trans hzero⟩

theorem mono (hJK : J → K) (h : Extends J ds ds') : Extends K ds ds' where
  same := h.same
  created k b hnone hb := ⟨hJK (h.created k b hnone hb).1, (h.created k b hnone hb).2⟩

theorem contains (h : Extends J ds ds') (hk : ds.contains k = true) : ds'.contains k = true := by
  obtain ⟨a, ha⟩ := Delegates.contains_iff.mp hk
  obtain ⟨b, hb, -⟩ := h.same k a ha
  exact Delegates.contains_iff.mpr ⟨b, hb⟩

theorem totalVotes (h : Extends False ds ds') (k : DelegateId) :
    (ds'.find? k).map (·.totalVotes) = (ds.find? k).map (·.totalVotes) := by
  cases ha : ds.find? k with
  | some a =>
    obtain ⟨b, hb, hba⟩ := h.same k a ha
    simp [hb, DelegateInfo.totalVotes_eq hba]
  | none =>
    cases hb : ds'.find? k with
    | none => rfl
    | some b => exact absurd (h.created k b ha hb).1 id

/-- The same change to an entry on both sides, one that does not touch or read
the statistics. -/
theorem insert (h : Extends J ds ds') (hab : b.withoutCounters = a.withoutCounters) :
    Extends J (OrdMap.insert ds k a) (OrdMap.insert ds' k b) where
  same k' a' ha' := by
    rw [OrdMap.find?_insert] at ha' ⊢
    split_ifs at ha' ⊢ with hk
    · cases ha'
      exact ⟨b, rfl, hab⟩
    · exact h.same k' a' ha'
  created k' b' hnone hb' := by
    rw [OrdMap.find?_insert] at hnone hb'
    split_ifs at hnone hb' with hk
    exact h.created k' b' hnone hb'

theorem erase (h : Extends J ds ds') (k : DelegateId) :
    Extends J (OrdMap.erase ds k) (OrdMap.erase ds' k) where
  same k' a' ha' := by
    rw [OrdMap.find?_erase] at ha' ⊢
    split_ifs at ha' ⊢ with hk
    exact h.same k' a' ha'
  created k' b' hnone hb' := by
    rw [OrdMap.find?_erase] at hnone hb'
    split_ifs at hnone hb' with hk
    exact h.created k' b' hnone hb'

end Delegates.Extends

theorem withTotal_withoutCounters (total : UInt64) (h : b.withoutCounters = a.withoutCounters) :
    DelegateInfo.withoutCounters { b with totalVotes := total } =
      DelegateInfo.withoutCounters { a with totalVotes := total } :=
  congrArg (fun info : DelegateInfo => { info with totalVotes := total }) h

section Votes

variable {J : Prop} {ds t ds₁ : Delegates}

theorem reapplyVote_extends {item : DelegateId × UInt64} (h : ds.Extends J t)
    (hstep : reapplyVote item ds = (true, ds₁)) :
    ∃ t₁, reapplyVote item t = (true, t₁) ∧ ds₁.Extends J t₁ := by
  unfold reapplyVote at hstep
  split at hstep
  · simp at hstep
  · rename_i a ha
    obtain ⟨b, hb, hba⟩ := h.same _ a ha
    split_ifs at hstep with hover hmax
    · simp at hstep
    · obtain rfl := (Prod.mk.inj hstep).2
      rw [← DelegateInfo.totalVotes_eq hba] at hover hmax ⊢
      refine ⟨_, by simp only [reapplyVote, hb, hover, hmax, if_true]; rfl, ?_⟩
      exact h.insert (withTotal_withoutCounters _ hba)
    · simp at hstep

theorem unapplyVote_extends {expected : UInt64} {enforce : Bool} {item : DelegateId × UInt64}
    (h : ds.Extends J t) (hstep : unapplyVote expected enforce item ds = (true, ds₁)) :
    ∃ t₁, unapplyVote expected enforce item t = (true, t₁) ∧ ds₁.Extends J t₁ := by
  unfold unapplyVote at hstep
  split at hstep
  · simp at hstep
  · rename_i a ha
    obtain ⟨b, hb, hba⟩ := h.same _ a ha
    split_ifs at hstep with henforce
    · simp at hstep
    split at hstep
    · simp at hstep
    · rename_i total htotal
      obtain rfl := (Prod.mk.inj hstep).2
      rw [← DelegateInfo.totalVotes_eq hba] at henforce htotal
      refine ⟨OrdMap.insert t item.1 { b with totalVotes := total }, ?_,
        h.insert (withTotal_withoutCounters _ hba)⟩
      simp only [unapplyVote, hb, henforce, htotal]
      rfl

theorem reapplyVotes_extends {inst : VoteInstance} (h : ds.Extends J t)
    (hrun : reapplyVotes inst ds = (true, ds₁)) :
    ∃ t₁, reapplyVotes inst t = (true, t₁) ∧ ds₁.Extends J t₁ := by
  unfold reapplyVotes at hrun ⊢
  refine allApply_simulate (fun item _ _ _ _ hrel hstep => ?_) h hrun
  exact reapplyVote_extends hrel hstep

theorem unapplyVotes_extends {inst : VoteInstance} {enforce : Bool} (h : ds.Extends J t)
    (hrun : unapplyVotes inst enforce ds = (true, ds₁)) :
    ∃ t₁, unapplyVotes inst enforce t = (true, t₁) ∧ ds₁.Extends J t₁ := by
  unfold unapplyVotes at hrun ⊢
  refine allApply_simulate (fun item _ _ _ _ hrel hstep => ?_) h hrun
  exact unapplyVote_extends hrel hstep

theorem onLastVote_extends {history : List VoteInstance}
    (change : VoteInstance → Delegates → Bool × Delegates)
    (hchange : ∀ inst (ds ds₁ t : Delegates), ds.Extends J t → change inst ds = (true, ds₁) →
      ∃ t₁, change inst t = (true, t₁) ∧ ds₁.Extends J t₁)
    (h : ds.Extends J t) (hrun : onLastVote history change ds = (true, ds₁)) :
    ∃ t₁, onLastVote history change t = (true, t₁) ∧ ds₁.Extends J t₁ := by
  unfold onLastVote at hrun ⊢
  split at hrun
  · obtain rfl : ds = ds₁ := by simpa using hrun
    exact ⟨t, rfl, h⟩
  · exact hchange _ _ _ _ h hrun

end Votes

/-- The same tables with other statistics of the delegates. -/
structure InputTables.Extends (J : Prop) (l l' : InputTables) : Prop where
  delegates : l.delegates.Extends J l'.delegates
  rest : l' = { l with delegates := l'.delegates }

namespace InputTables.Extends

variable {J : Prop} {l l' l'' : InputTables}

theorem refl (l : InputTables) : Extends J l l := ⟨.refl _, rfl⟩

theorem trans (h : Extends J l l') (h' : Extends J l' l'') : Extends J l l'' :=
  ⟨h.delegates.trans h'.delegates, by rw [h'.rest, h.rest]⟩

theorem mono (hJK : J → K) (h : Extends J l l') : Extends K l l' :=
  ⟨h.delegates.mono hJK, h.rest⟩

end InputTables.Extends

/-- The input has not been used: its key is unspent, or neither its delegate nor
its address is registered. -/
def InputTables.Fresh : TxIn → InputTables → Prop
  | .toKey inp, l => l.spentKeys inp.kImage = false
  | .vote inp, l => l.spentKeys inp.ink.kImage = false
  | .registerDelegate inp, l => l.delegates.contains inp.delegateId = false ∧
      ∀ k info, l.delegates.find? k = some info → info.publicAddress ≠ inp.delegateAddress
  | _, _ => True

namespace InputTables

variable {J : Prop} {l t l₁ : InputTables}

theorem purgeToKey_extends {inp : TxinToKey} (h : l.Extends J t)
    (hstep : purgeToKey inp l = (true, l₁)) :
    ∃ t₁, purgeToKey inp t = (true, t₁) ∧ l₁.Extends J t₁ := by
  obtain ⟨hds, hrest⟩ := h
  unfold purgeToKey at hstep
  split_ifs at hstep with hspent
  · have hrun : onLastVote (l.voteHistories inp.kImage) reapplyVotes l.delegates =
        (true, l₁.delegates) := by
      obtain ⟨hr, rfl⟩ := Prod.mk.inj hstep
      exact Prod.ext hr rfl
    obtain ⟨ds, hds', hext⟩ := onLastVote_extends reapplyVotes (fun _ _ _ _ => reapplyVotes_extends) hds hrun
    obtain rfl := (Prod.mk.inj hstep).2
    rw [hrest]
    refine ⟨_, by simp only [purgeToKey, hspent, if_true, hds']; rfl, hext, rfl⟩
  · simp at hstep

theorem purgeRegisterDelegate_extends {inp : TxinRegisterDelegate} (h : l.Extends J t)
    (hstep : purgeRegisterDelegate inp l = (true, l₁)) :
    ∃ t₁, purgeRegisterDelegate inp t = (true, t₁) ∧ l₁.Extends J t₁ := by
  obtain ⟨hds, hrest⟩ := h
  unfold purgeRegisterDelegate at hstep
  split at hstep
  · simp at hstep
  · rename_i a ha
    obtain rfl := (Prod.mk.inj hstep).2
    obtain ⟨b, hb, -⟩ := hds.same _ a ha
    refine ⟨{ t with delegates := t.delegates.erase inp.delegateId }, ?_, hds.erase _, ?_⟩
    · simp only [purgeRegisterDelegate, hb]
    · rw [hrest]

theorem purgeVote_extends {inp : TxinVote} (h : l.Extends J t)
    (hstep : purgeVote inp l = (true, l₁)) :
    ∃ t₁, purgeVote inp t = (true, t₁) ∧ l₁.Extends J t₁ := by
  obtain ⟨hds, hrest⟩ := h
  simp only [purgeVote] at hstep
  split at hstep
  · simp at hstep
  · rename_i inst hinst
    split_ifs at hstep with hseq hexpected hrecorded hseen
    all_goals try simp at hstep
    split at hstep
    · simp at hstep
    · rename_i ds₁ hun
      obtain ⟨t₁, hun', hext⟩ := unapplyVotes_extends hds hun
      have hrun : onLastVote (l.voteHistories inp.ink.kImage).dropLast reapplyVotes ds₁ =
          (true, l₁.delegates) := by
        obtain ⟨hr, rfl⟩ := Prod.mk.inj hstep
        exact Prod.ext hr rfl
      obtain ⟨t₂, hre, hext'⟩ := onLastVote_extends reapplyVotes (fun _ _ _ _ => reapplyVotes_extends) hext hrun
      obtain rfl := (Prod.mk.inj hstep).2
      rw [hrest]
      refine ⟨_, by
        simp only [purgeVote, hinst, hseq, hexpected, hrecorded, hseen, hun', hre]; rfl, hext', rfl⟩

theorem purgeInput_extends {inp : TxIn} (hengaged : inp.engaged = true) (h : l.Extends J t)
    (hstep : purgeInput inp l = (true, l₁)) :
    ∃ t₁, purgeInput inp t = (true, t₁) ∧ l₁.Extends J t₁ := by
  cases inp with
  | gen _ =>
    obtain rfl : l = l₁ := by simpa [purgeInput] using hstep
    exact ⟨t, rfl, h⟩
  | toKey inp => exact purgeToKey_extends h hstep
  | registerDelegate inp => exact purgeRegisterDelegate_extends h hstep
  | vote inp => exact purgeVote_extends h hstep
  | _ => exact absurd hengaged (by simp [TxIn.engaged])

end InputTables

namespace Ledger

/-- The same ledger with other statistics of the delegates. -/
structure Extends (J : Prop) (l l' : Ledger) : Prop where
  tables : l.toInputTables.Extends J l'.toInputTables
  outputs : l'.outputs = l.outputs
  transactions : l'.transactions = l.transactions

namespace Extends

variable {J : Prop} {l l' l'' : Ledger}

theorem refl (l : Ledger) : Extends J l l := ⟨.refl _, rfl, rfl⟩

theorem ofDelegates (l : Ledger) {ds : Delegates} (h : l.delegates.Extends J ds) :
    Extends J l { l with delegates := ds } := ⟨⟨h, rfl⟩, rfl, rfl⟩

theorem trans (h : Extends J l l') (h' : Extends J l' l'') : Extends J l l'' :=
  ⟨h.tables.trans h'.tables, h'.outputs.trans h.outputs, h'.transactions.trans h.transactions⟩

theorem mono (hJK : J → K) (h : Extends J l l') : Extends K l l' :=
  ⟨h.tables.mono hJK, h.outputs, h.transactions⟩

end Extends

/-- The part of a transaction's removal that concerns the ledger. -/
def purgeTransaction (txId : Hash) (l : Ledger) : Bool × Ledger :=
  match l.transactions txId with
  | none => (false, l)
  | some entry =>
    match l.purgeTransactionData entry.tx.toTransactionPrefix true with
    | (false, l') => (false, l')
    | (true, l') =>
      let r := popOutputs entry.tx.toTransactionPrefix txId entry.tx.vout.reverse l'.outputs
      (r.1, { l' with
        outputs := r.2
        transactions := Function.update l'.transactions txId none })

/-- What every purged input keeps. -/
theorem purgeTransaction_keeps {P : InputTables → Prop} {l : Ledger} (h : P l.toInputTables)
    (hstep : ∀ entry, l.transactions txId = some entry → ∀ inp ∈ entry.tx.vin, ∀ t, P t →
      P (InputTables.purgeInput inp t).2) : P (l.purgeTransaction txId).2.toInputTables := by
  unfold purgeTransaction
  split
  · exact h
  · rename_i entry hentry
    have hrun : P (l.purgeTransactionData entry.tx.toTransactionPrefix true).2.toInputTables :=
      allApply_keeps (fun inp hinp => hstep entry hentry inp (List.mem_reverse.mp hinp)) h
    split
    · rename_i l' hl'
      rwa [hl'] at hrun
    · rename_i l' hl'
      rwa [hl'] at hrun

theorem purgeTransaction_transactions {l : Ledger} {id : Hash} {e : TransactionChainEntry}
    (h : (l.purgeTransaction txId).2.transactions id = some e) : l.transactions id = some e := by
  unfold purgeTransaction at h
  split at h
  · exact h
  split at h
  · rename_i l' hl'
    obtain ⟨-, rfl⟩ := Prod.mk.inj hl'
    exact h
  · rename_i l' hl'
    obtain ⟨-, rfl⟩ := Prod.mk.inj hl'
    dsimp only at h
    rw [Function.update_apply] at h
    split at h
    · cases h
    · exact h

/-- What the checks before adding a transaction guarantee. -/
structure Addable (tx : TransactionPrefix) (l : Ledger) : Prop where
  disjoint : tx.vin.Pairwise TxIn.Disjoint
  checked : ∀ inp ∈ tx.vin, InputTables.Checked inp l.toInputTables
  fresh : ∀ inp ∈ tx.vin, InputTables.Fresh inp l.toInputTables

theorem Addable.engaged {tx : TransactionPrefix} {l : Ledger} (h : Addable tx l) :
    ∀ inp ∈ tx.vin, inp.engaged = true :=
  fun inp hinp => (h.checked inp hinp).1

theorem purgeTransaction_addTransactionFromBlock {crypto : Crypto} {popping : Bool}
    {tx : Transaction} {height : Nat} {l l' : Ledger} (haddable : Addable tx.toTransactionPrefix l)
    (h : addTransactionFromBlock crypto popping tx txId height l = (.added, l')) :
    l'.purgeTransaction txId = (true, l) := by
  obtain ⟨tables, hrun, hnone, rfl⟩ := addTransactionFromBlock_eq_added h
  have hundo := InputTables.purgeInputs_addInputs (haddable.disjoint.imp TxIn.Disjoint.compatible)
    haddable.checked hrun
  have hrestore : Function.update l.transactions txId none = l.transactions := by
    rw [← hnone, Function.update_eq_self]
  simp only [purgeTransaction, Function.update_self, purgeTransactionData, hundo, Bool.true_or,
    popOutputs_pushOutputs_self, Function.update_idem, hrestore]

theorem purgeTransaction_extends {J : Prop} {l l₁ t : Ledger}
    (hengaged : ∀ entry, l.transactions txId = some entry →
      ∀ inp ∈ entry.tx.vin, inp.engaged = true) (h : l.Extends J t)
    (hstep : l.purgeTransaction txId = (true, l₁)) :
    ∃ t₁, t.purgeTransaction txId = (true, t₁) ∧ l₁.Extends J t₁ := by
  unfold purgeTransaction at hstep
  split at hstep
  · simp at hstep
  · rename_i entry hentry
    have hengaged := hengaged entry hentry
    cases hrun : allApply InputTables.purgeInput entry.tx.vin.reverse l.toInputTables with
    | mk r tables =>
      cases r with
      | false => simp [purgeTransactionData, hrun] at hstep
      | true =>
        obtain ⟨tables', hrun', hext⟩ := allApply_simulate
          (fun inp hinp _ _ _ hrel hone =>
            InputTables.purgeInput_extends (hengaged inp (List.mem_reverse.mp hinp)) hrel hone)
          h.tables hrun
        simp only [purgeTransactionData, hrun, Bool.true_or] at hstep
        obtain ⟨hpop, rfl⟩ := Prod.mk.inj hstep
        simp only [purgeTransaction, h.transactions, hentry, purgeTransactionData, hrun',
          Bool.true_or, h.outputs, hpop]
        exact ⟨_, rfl, hext, rfl, rfl⟩

end Ledger

/-- The delegates of the second table are in the first, up to votes. -/
def Delegates.Shrinks (ds ds' : Delegates) : Prop :=
  ∀ k b, ds'.find? k = some b → ∃ a, ds.find? k = some a ∧ b.withoutVotes = a.withoutVotes

namespace Delegates.Shrinks

variable {ds ds' ds'' : Delegates}

theorem refl (ds : Delegates) : ds.Shrinks ds := fun _ b hb => ⟨b, hb, rfl⟩

theorem trans (h : ds.Shrinks ds') (h' : ds'.Shrinks ds'') : ds.Shrinks ds'' := by
  intro k c hc
  obtain ⟨b, hb, hcb⟩ := h' k c hc
  obtain ⟨a, ha, hba⟩ := h k b hb
  exact ⟨a, ha, hcb.trans hba⟩

theorem insert (ha : ds.find? k = some a) (hab : b.withoutVotes = a.withoutVotes) :
    ds.Shrinks (OrdMap.insert ds k b) := by
  intro k' b' hb'
  rw [OrdMap.find?_insert] at hb'
  split_ifs at hb' with hk
  · subst hk
    cases hb'
    exact ⟨a, ha, hab⟩
  · exact ⟨b', hb', rfl⟩

theorem erase (ds : Delegates) (k : DelegateId) : ds.Shrinks (OrdMap.erase ds k) := by
  intro k' b' hb'
  rw [OrdMap.find?_erase] at hb'
  split_ifs at hb'
  exact ⟨b', hb', rfl⟩

end Delegates.Shrinks

theorem reapplyVotes_shrinks (inst : VoteInstance) (ds : Delegates) :
    ds.Shrinks (reapplyVotes inst ds).2 := by
  refine allApply_keeps (fun item _ t ht => ht.trans ?_) (.refl ds)
  unfold reapplyVote
  split
  · exact .refl t
  · rename_i info hinfo
    split_ifs
    · exact .refl t
    · exact .insert hinfo rfl
    · exact .refl t

theorem unapplyVotes_shrinks (inst : VoteInstance) (enforce : Bool) (ds : Delegates) :
    ds.Shrinks (unapplyVotes inst enforce ds).2 := by
  refine allApply_keeps (fun item _ t ht => ht.trans ?_) (.refl ds)
  unfold unapplyVote
  split
  · exact .refl t
  · rename_i info hinfo
    split_ifs
    · exact .refl t
    · split
      · exact .refl t
      · exact .insert hinfo rfl

theorem onLastVote_shrinks {change : VoteInstance → Delegates → Bool × Delegates}
    (hchange : ∀ inst ds, Delegates.Shrinks ds (change inst ds).2) (history : List VoteInstance)
    (ds : Delegates) : ds.Shrinks (onLastVote history change ds).2 := by
  unfold onLastVote
  split
  · exact .refl ds
  · exact hchange _ ds

theorem InputTables.purgeInput_shrinks {inp : TxIn} (hengaged : inp.engaged = true)
    (l : InputTables) : l.delegates.Shrinks (purgeInput inp l).2.delegates := by
  cases inp with
  | gen _ => exact .refl _
  | toKey inp =>
    simp only [purgeInput, purgeToKey]
    split_ifs
    · exact onLastVote_shrinks reapplyVotes_shrinks _ _
    · exact .refl _
  | registerDelegate inp =>
    simp only [purgeInput, purgeRegisterDelegate]
    split
    · exact .refl _
    · exact .erase _ _
  | vote inp =>
    simp only [purgeInput, purgeVote]
    split
    · exact .refl _
    rename_i inst _
    split_ifs
    · exact .refl _
    · exact .refl _
    · exact .refl _
    · exact .refl _
    have hun := unapplyVotes_shrinks inst true l.delegates
    split
    · rename_i ds hds
      rwa [hds] at hun
    · rename_i ds hds
      rw [hds] at hun
      exact hun.trans (onLastVote_shrinks reapplyVotes_shrinks _ _)
  | _ => exact absurd hengaged (by simp [TxIn.engaged])

theorem Ledger.purgeTransaction_shrinks (txId : Hash) (l : Ledger)
    (hengaged : ∀ entry, l.transactions txId = some entry →
      ∀ inp ∈ entry.tx.vin, inp.engaged = true) :
    l.delegates.Shrinks (l.purgeTransaction txId).2.delegates :=
  purgeTransaction_keeps (P := fun t => l.delegates.Shrinks t.delegates) (.refl _)
    fun entry hentry inp hinp t ht =>
      ht.trans (InputTables.purgeInput_shrinks (hengaged entry hentry inp hinp) t)

theorem Ledger.purgeTransaction_added {J : Prop} {crypto : Crypto} {tx : Transaction} {height : Nat}
    {l l' t : Ledger} (haddable : l.Addable tx.toTransactionPrefix)
    (hadd : l.addTransactionFromBlock crypto false tx txId height = (.added, l'))
    (hext : l'.Extends J t) :
    ∃ t₁ entry, t.transactions txId = some entry ∧ entry.tx = tx ∧
      t.purgeTransaction txId = (true, t₁) ∧ l.Extends J t₁ ∧
      t.delegates.Shrinks t₁.delegates := by
  obtain ⟨entry, hentry, rfl⟩ : ∃ entry, l'.transactions txId = some entry ∧ entry.tx = tx := by
    obtain ⟨_, -, -, rfl⟩ := addTransactionFromBlock_eq_added hadd
    exact ⟨_, Function.update_self _ _ _, rfl⟩
  have hengaged : ∀ e, l'.transactions txId = some e → ∀ inp ∈ e.tx.vin, inp.engaged = true := by
    intro e he
    obtain rfl := Option.some.inj (hentry.symm.trans he)
    exact haddable.engaged
  obtain ⟨t₁, ht₁, hl⟩ := purgeTransaction_extends hengaged hext
    (purgeTransaction_addTransactionFromBlock haddable hadd)
  refine ⟨t₁, entry, hext.transactions ▸ hentry, rfl, ht₁, hl, ?_⟩
  have := purgeTransaction_shrinks txId t (hext.transactions ▸ hengaged)
  rwa [ht₁] at this

/-- A transaction of the main chain. -/
structure TxRecord where
  tx : Transaction
  id : Hash
  height : Nat

/-- The ledger is exactly what the transactions, each checked before it was
added, make of `base`. -/
inductive Ledger.Connected (crypto : Crypto) (base : Ledger) : List TxRecord → Ledger → Prop
  | nil : Connected crypto base [] base
  | add {rs : List TxRecord} {l l' : Ledger} {r : TxRecord} : Connected crypto base rs l →
      l.Addable r.tx.toTransactionPrefix →
      l.addTransactionFromBlock crypto false r.tx r.id r.height = (.added, l') →
      Connected crypto base (rs ++ [r]) l'

/-- The ledger is what the transactions, each checked before it was added, make
of `base`, apart from the statistics of the delegates. -/
inductive Ledger.Replay (crypto : Crypto) (J : Prop) (base : Ledger) :
    List TxRecord → Ledger → Prop
  | base {l : Ledger} : base.Extends J l → Replay crypto J base [] l
  | add {rs : List TxRecord} {l l₁ l' : Ledger} {r : TxRecord} : Replay crypto J base rs l →
      l.Addable r.tx.toTransactionPrefix →
      l.addTransactionFromBlock crypto false r.tx r.id r.height = (.added, l₁) →
      l₁.Extends J l' → Replay crypto J base (rs ++ [r]) l'

namespace Ledger.Replay

variable {crypto : Crypto} {J : Prop} {base : Ledger} {rs : List TxRecord} {l l' : Ledger}

theorem of_extends (h : Replay crypto J base rs l) (hext : l.Extends J l') :
    Replay crypto J base rs l' := by
  cases h with
  | base hbase => exact .base (hbase.trans hext)
  | add hrs haddable hadd hl => exact .add hrs haddable hadd (hl.trans hext)

theorem mono (hJK : J → K) (h : Replay crypto J base rs l) : Replay crypto K base rs l := by
  induction h with
  | base hbase => exact .base (hbase.mono hJK)
  | add _ haddable hadd hext ih => exact .add ih haddable hadd (hext.mono hJK)

theorem eq_append (h : Replay crypto J base (rs ++ [r]) l') :
    ∃ l l₁, Replay crypto J base rs l ∧ l.Addable r.tx.toTransactionPrefix ∧
      l.addTransactionFromBlock crypto false r.tx r.id r.height = (.added, l₁) ∧
      l₁.Extends J l' := by
  generalize hrs : rs ++ [r] = rs' at h
  cases h with
  | base => simp at hrs
  | add hrun haddable hadd hext =>
    obtain ⟨rfl, hr⟩ := List.append_inj' hrs rfl
    obtain rfl := List.singleton_inj.mp hr
    exact ⟨_, _, hrun, haddable, hadd, hext⟩

theorem purge_last (h : Replay crypto J base (rs ++ [r]) l') :
    ∃ l, l'.purgeTransaction r.id = (true, l) ∧ Replay crypto J base rs l := by
  obtain ⟨l, l₁, hrun, haddable, hadd, hext⟩ := h.eq_append
  obtain ⟨t, _, -, -, ht, hlt, -⟩ := purgeTransaction_added haddable hadd hext
  exact ⟨t, ht, hrun.of_extends hlt⟩

theorem of_connected (h : Replay crypto J base rs l) {rs' : List TxRecord}
    (hconn : Connected crypto l rs' l') : Replay crypto J base (rs ++ rs') l' := by
  induction hconn with
  | nil => simpa using h
  | add _ haddable hadd ih =>
    rw [← List.append_assoc]
    exact .add ih haddable hadd (.refl _)

end Ledger.Replay

theorem Ledger.Connected.purge_last {crypto : Crypto} {base : Ledger} {rs : List TxRecord}
    {l' : Ledger} (h : Connected crypto base (rs ++ [r]) l') :
    ∃ l, l'.purgeTransaction r.id = (true, l) ∧ Connected crypto base rs l := by
  generalize hrs : rs ++ [r] = rs' at h
  cases h with
  | nil => simp at hrs
  | add hrun haddable hadd =>
    obtain ⟨rfl, hr⟩ := List.append_inj' hrs rfl
    obtain rfl := List.singleton_inj.mp hr
    exact ⟨_, purgeTransaction_addTransactionFromBlock haddable hadd, hrun⟩

theorem Ledger.Connected.eq_base {crypto : Crypto} {base l : Ledger}
    (h : Connected crypto base [] l) : l = base := by
  generalize hnil : ([] : List TxRecord) = rs at h
  cases h with
  | nil => rfl
  | add => simp at hnil

end Pebblecoin
