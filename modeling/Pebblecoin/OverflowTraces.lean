import Pebblecoin.ChainRecords

/-!
A transaction that fails in the middle because a vote overflows is taken back from
its end, which stops at the inputs that were never added: the earlier ones stay.
-/

namespace Pebblecoin

open Containers Control

variable {crypto : Crypto} {height : Nat} {popping : Bool} {inp : TxIn} {J : Prop}
  {rs : List TxRecord} {s : Storage} {bl : Block} {id : Hash}

/-- The ids of a table of delegates are among those of another. -/
def Delegates.Keeps (ds ds' : Delegates) : Prop :=
  ∀ k, ds.contains k = true → ds'.contains k = true

namespace Delegates.Keeps

variable {ds ds' ds'' : Delegates}

theorem refl (ds : Delegates) : ds.Keeps ds := fun _ h => h

theorem trans (h : ds.Keeps ds') (h' : ds'.Keeps ds'') : ds.Keeps ds'' := fun k hk => h' k (h k hk)

theorem insert (ds : Delegates) (k : DelegateId) (info : DelegateInfo) :
    ds.Keeps (OrdMap.insert ds k info) := by
  intro j hj
  rw [OrdMap.contains, OrdMap.find?_insert]
  split_ifs
  · rfl
  · exact hj

theorem reapplyVotes (inst : VoteInstance) (ds : Delegates) :
    ds.Keeps (Pebblecoin.reapplyVotes inst ds).2 := by
  refine allApply_keeps (fun item _ t ht => ht.trans ?_) (refl ds)
  unfold reapplyVote
  split
  · exact refl t
  · split_ifs
    · exact refl t
    · exact insert _ _ _
    · exact refl t

theorem unapplyVotes (inst : VoteInstance) (enforce : Bool) (ds : Delegates) :
    ds.Keeps (Pebblecoin.unapplyVotes inst enforce ds).2 := by
  refine allApply_keeps (fun item _ t ht => ht.trans ?_) (refl ds)
  unfold unapplyVote
  split
  · exact refl t
  · split_ifs
    · exact refl t
    · split
      · exact refl t
      · exact insert _ _ _

theorem applyVotes (height : Nat) (popping : Bool) (amount : UInt64) (votes : DelegateVotes)
    (ds : Delegates) : ds.Keeps (Pebblecoin.applyVotes height popping amount votes ds).2.2 := by
  unfold Pebblecoin.applyVotes
  split
  · exact refl ds
  · refine allApply_keeps (P := fun t : OrdMap DelegateId UInt64 × Delegates => ds.Keeps t.2)
      (fun id _ t ht => ht.trans ?_) (refl ds)
    unfold applyVote
    dsimp only
    split
    · exact refl t.2
    · exact insert _ _ _

theorem onLastVote {change : VoteInstance → Delegates → Bool × Delegates}
    (hchange : ∀ inst ds, Delegates.Keeps ds (change inst ds).2) (history : List VoteInstance)
    (ds : Delegates) : ds.Keeps (Pebblecoin.onLastVote history change ds).2 := by
  unfold Pebblecoin.onLastVote
  split
  · exact refl ds
  · exact hchange _ _

end Delegates.Keeps

/-- The two inputs leave the same trace. -/
def TxIn.SameUse : TxIn → TxIn → Prop
  | .toKey a, .toKey b => a.kImage = b.kImage
  | .vote a, .vote b => a.ink.kImage = b.ink.kImage ∧ a.seq = b.seq
  | .registerDelegate a, .registerDelegate b => a.delegateId = b.delegateId
  | _, _ => False

namespace InputTables

variable {l l' : InputTables} {a b : TxIn}

theorem used_congr (h : a.SameUse b) : Used a l ↔ Used b l := by
  cases a <;> cases b <;> simp_all [TxIn.SameUse, Used]

theorem addInput_eq_false (hengaged : a.engaged = true)
    (h : addInput crypto height popping a l = (false, l')) :
    l' = { l with delegates := l'.delegates } ∧ l.delegates.Keeps l'.delegates := by
  cases a with
  | gen _ => simp [addInput] at h
  | toKey inp =>
    simp only [addInput, addToKey] at h
    have hkeeps := Delegates.Keeps.onLastVote
      (fun inst ds => Delegates.Keeps.unapplyVotes inst false ds) (l.voteHistories inp.kImage)
      l.delegates
    split at h
    · rename_i ds hds
      obtain ⟨-, rfl⟩ := Prod.mk.inj h
      rw [hds] at hkeeps
      exact ⟨rfl, hkeeps⟩
    · rename_i ds hds
      rw [hds] at hkeeps
      split_ifs at h
      · obtain ⟨-, rfl⟩ := Prod.mk.inj h
        exact ⟨rfl, hkeeps⟩
      · simp at h
  | registerDelegate inp =>
    simp only [addInput, addRegisterDelegate] at h
    split at h
    · obtain ⟨-, rfl⟩ := Prod.mk.inj h
      exact ⟨rfl, .refl _⟩
    · simp at h
  | vote inp =>
    simp only [addInput, addVote] at h
    have hkeeps := Delegates.Keeps.onLastVote
      (fun inst ds => Delegates.Keeps.unapplyVotes inst false ds)
      (l.voteHistories inp.ink.kImage) l.delegates
    split_ifs at h
    · obtain ⟨-, rfl⟩ := Prod.mk.inj h
      exact ⟨rfl, .refl _⟩
    split at h
    · rename_i ds hds
      obtain ⟨-, rfl⟩ := Prod.mk.inj h
      rw [hds] at hkeeps
      exact ⟨rfl, hkeeps⟩
    · rename_i ds hds
      have happly := Delegates.Keeps.applyVotes height popping inp.ink.amount inp.votes ds
      rw [hds] at hkeeps
      split at h
      · rename_i inst ds' hds'
        obtain ⟨-, rfl⟩ := Prod.mk.inj h
        rw [hds'] at happly
        exact ⟨rfl, hkeeps.trans happly⟩
      · simp at h
  | _ => simp [TxIn.engaged] at hengaged

theorem Used.of_addInput_false (hengaged : a.engaged = true) (hb : Used b l)
    (h : addInput crypto height popping a l = (false, l')) : Used b l' := by
  obtain ⟨hrest, hkeeps⟩ := addInput_eq_false hengaged h
  cases b with
  | toKey inp =>
    rw [hrest]
    exact hb
  | vote inp =>
    rw [hrest]
    exact hb
  | registerDelegate inp => exact hkeeps _ hb
  | _ => trivial

theorem Used.of_purgeInput (hengaged : a.engaged = true) (hother : ¬ a.SameUse b) (hb : Used b l) :
    Used b (purgeInput a l).2 := by
  cases a with
  | gen _ => exact hb
  | toKey inp =>
    simp only [purgeInput, purgeToKey]
    split_ifs
    · have hkeeps := Delegates.Keeps.onLastVote
        (fun inst ds => Delegates.Keeps.reapplyVotes inst ds) (l.voteHistories inp.kImage)
        l.delegates
      cases b with
      | toKey inp' =>
        have hne : inp'.kImage ≠ inp.kImage := fun h => hother h.symm
        have hspent : l.spentKeys inp'.kImage = true := hb
        exact (Function.update_of_ne hne _ _).trans hspent
      | registerDelegate inp' => exact hkeeps _ hb
      | vote inp' => exact hb
      | _ => trivial
    · exact hb
  | registerDelegate inp =>
    simp only [purgeInput, purgeRegisterDelegate]
    split
    · exact hb
    · cases b with
      | registerDelegate inp' =>
        have hne : inp'.delegateId ≠ inp.delegateId := fun h => hother h.symm
        have hknown : l.delegates.contains inp'.delegateId = true := hb
        simpa [Used, OrdMap.contains, OrdMap.find?_erase, Ne.symm hne] using hknown
      | toKey inp' => exact hb
      | vote inp' => exact hb
      | _ => trivial
  | vote inp =>
    simp only [purgeInput, purgeVote]
    split
    · exact hb
    rename_i inst hlast
    split_ifs with hseq hamount hvotes hvotes'
    all_goals try exact hb
    have hunapply := Delegates.Keeps.unapplyVotes inst true l.delegates
    split
    · rename_i ds hds
      rw [hds] at hunapply
      cases b with
      | registerDelegate inp' => exact hunapply _ hb
      | toKey inp' => exact hb
      | vote inp' => exact hb
      | _ => trivial
    · rename_i ds hds
      rw [hds] at hunapply
      have hkeeps := hunapply.trans (Delegates.Keeps.onLastVote
        (fun inst ds => Delegates.Keeps.reapplyVotes inst ds)
        (l.voteHistories inp.ink.kImage).dropLast ds)
      cases b with
      | registerDelegate inp' => exact hkeeps _ hb
      | toKey inp' => exact hb
      | vote inp' =>
        have hlt : inp'.seq.toNat < (l.voteHistories inp'.ink.kImage).length := hb
        by_cases himage : inp'.ink.kImage = inp.ink.kImage
        · -- the last vote of the history is another one
          have hne : inp.seq ≠ inp'.seq := fun h => hother ⟨himage.symm, h⟩
          have hne' : inp.seq.toNat ≠ inp'.seq.toNat := fun h => hne (UInt16.toNat_inj.mp h)
          rw [himage] at hlt
          simp only [Used, himage, Function.update_self, List.length_dropLast]
          omega
        · simpa [Used, Function.update_of_ne himage] using hlt
      | _ => trivial
  | _ => simp [TxIn.engaged] at hengaged

theorem purgeVote_eq_false {inp : TxinVote} (h : ¬ Used (.vote inp) l) :
    purgeVote inp l = (false, l) := by
  have hle : (l.voteHistories inp.ink.kImage).length ≤ inp.seq.toNat := not_lt.mp h
  unfold purgeVote
  cases hlast : (l.voteHistories inp.ink.kImage).getLast? with
  | none => simp [hlast]
  | some inst =>
    have hpos : 0 < (l.voteHistories inp.ink.kImage).length := by
      rw [List.length_pos_iff]
      rintro hnil
      simp [hnil] at hlast
    simp only [hlast]
    rw [if_pos (by omega)]

theorem Used.of_purgeInput_vote {inp : TxinVote} (hengaged : a.engaged = true)
    (h : Used (.vote inp) (purgeInput a l).2) : Used (.vote inp) l := by
  refine Nat.lt_of_lt_of_le h ?_
  cases a with
  | gen _ => exact le_rfl
  | toKey inp' =>
    simp only [purgeInput, purgeToKey]
    split_ifs <;> exact le_rfl
  | registerDelegate inp' =>
    simp only [purgeInput, purgeRegisterDelegate]
    split <;> exact le_rfl
  | vote inp' =>
    simp only [purgeInput, purgeVote]
    split
    · exact le_rfl
    split_ifs
    all_goals try exact le_rfl
    split
    · exact le_rfl
    · simp only [Function.update_apply]
      split_ifs with himage
      · simp [himage]
      · exact le_rfl
  | _ => simp [TxIn.engaged] at hengaged

theorem firstFailure_split {before after : List TxIn} {m : InputTables}
    (hbefore : allApply (addInput crypto height popping) before l = (true, m))
    (ha : addInput crypto height popping a m = (false, l')) :
    firstFailure crypto height popping (before ++ a :: after) l = some (a, m) := by
  induction before generalizing l with
  | nil =>
    obtain rfl : l = m := by simpa using hbefore
    simp [firstFailure, ha]
  | cons b before ih =>
    obtain ⟨l₁, hone, hrest⟩ := allApply_cons_eq_true_iff.mp hbefore
    simp only [List.cons_append, firstFailure, hone]
    exact ih hrest

theorem not_sameUse_of_disjoint (h : a.Disjoint b) : ¬ b.SameUse a := by
  intro hsame
  cases a <;> cases b <;> simp only [TxIn.SameUse] at hsame
  · exact h.compatible _ rfl (congrArg some hsame)
  · exact h.ids _ rfl (congrArg some hsame)
  · exact h.compatible _ rfl (congrArg some hsame.1)

theorem Checked.of_addInputs {before : List TxIn} {m : InputTables}
    (hrun : allApply (addInput crypto height popping) before l = (true, m))
    (hpairwise : before.Pairwise TxIn.Disjoint) (hdisjoint : ∀ x ∈ before, x.Disjoint a)
    (hbefore : ∀ x ∈ before, Checked x l) (ha : Checked a l) : Checked a m := by
  refine allApply_induction (G := Checked) (P := fun done t => (∀ x ∈ done, x.Disjoint a) →
    Checked a t) (fun hdisjoint => Checked.of_addInput hdisjoint.compatible) hpairwise hbefore
    (fun done x t t' hx ht hone hdone => ?_) (fun _ => ha) hrun hdisjoint
  obtain ⟨hdone, hxa⟩ := List.forall_mem_append.mp hdone
  exact Checked.of_addInput (hxa x (by simp)).compatible hx (ht hdone) hone

/-- After a transaction whose votes overflow was taken back as far as that goes,
an input before the failed one is still used. -/
theorem Used.of_failed {vin : List TxIn} {first : TxIn} {rest : List TxIn}
    (hvin : vin = first :: rest) (hdisjoint : vin.Pairwise TxIn.Disjoint)
    (hchecked : ∀ inp ∈ vin, Checked inp l) (hfresh : ∀ inp ∈ vin, Fresh inp l)
    (hrun : allApply (addInput crypto height false) vin l = (false, l'))
    (hover : (firstFailure crypto height false vin l).any (voteWouldOverflow height false) = true)
    (hfirst : voteWouldOverflow height false (first, l) = false) :
    Used first (allApply purgeInput vin.reverse l').2 := by
  obtain ⟨before, a, after, m, hsplit, hbefore, ha⟩ := allApply_eq_false hrun
  rw [hsplit, firstFailure_split hbefore ha, Option.any_some] at hover
  obtain ⟨v, rfl⟩ : ∃ v, a = .vote v := by
    cases a <;> simp [voteWouldOverflow] at hover
    exact ⟨_, rfl⟩
  -- the failed vote is not the first input, which fits
  obtain ⟨b, before, rfl⟩ : ∃ b bs, before = b :: bs := by
    cases before with
    | nil =>
      obtain rfl : l = m := by simpa using hbefore
      obtain ⟨rfl, -⟩ := List.cons.inj (hvin.symm.trans hsplit)
      rw [hover] at hfirst
      cases hfirst
    | cons b bs => exact ⟨b, bs, rfl⟩
  obtain ⟨rfl, -⟩ := List.cons.inj (hvin.symm.trans hsplit)
  rw [hsplit] at hdisjoint hchecked hfresh
  obtain ⟨hpairwise, hrest, hacross⟩ := List.pairwise_append.mp hdisjoint
  have hcheckedBefore : ∀ x ∈ first :: before, Checked x l :=
    fun x hx => hchecked x (List.mem_append_left _ hx)
  have hcheckedVote : Checked (.vote v) m := Checked.of_addInputs hbefore hpairwise
    (fun x hx => hacross x hx _ (by simp)) hcheckedBefore (hchecked _ (by simp))
  have hused : Used first l' := Used.of_addInput_false rfl
    (used_of_addInputs hpairwise hcheckedBefore
      (fun x hx => hfresh x (List.mem_append_left _ hx)) hbefore first (by simp)) ha
  have hnotUsed : ¬ Used (.vote v) l' := by
    obtain ⟨hseq, -⟩ := hcheckedVote.2 v rfl
    rw [(addInput_eq_false rfl ha).1]
    exact not_lt.mpr hseq.ge
  have hreverse : vin.reverse = after.reverse ++ .vote v :: (first :: before).reverse := by
    simp [hsplit]
  rw [hreverse]
  refine (allApply_stopped (P := fun t => Used first t ∧ ¬ Used (.vote v) t)
    (fun x hx t ht => ?_) (fun t ht => ?_) ⟨hused, hnotUsed⟩).1
  · have hx' : x ∈ after := List.mem_reverse.mp hx
    have hengaged := (hchecked x (by simp [hx'])).1
    have hother := not_sameUse_of_disjoint (hacross first (by simp) x (by simp [hx']))
    exact ⟨ht.1.of_purgeInput hengaged hother, fun h => ht.2 (Used.of_purgeInput_vote hengaged h)⟩
  · simp only [purgeInput, purgeVote_eq_false ht.2]
    exact ⟨trivial, ht⟩

theorem applyVotes_fits {amount : UInt64} {votes : DelegateVotes} {ds : Delegates}
    (h : ∀ id ∈ votes.elems, ds.totalFor id + amount.toNat < 2 ^ 64) :
    (applyVotes height false amount votes ds).1 = true := by
  have hrun : ∀ (ids : List DelegateId) (t : OrdMap DelegateId UInt64 × Delegates), ids.Nodup →
      (∀ id ∈ ids, t.2.totalFor id + amount.toNat < 2 ^ 64) →
      (allApply (applyVote amount) ids t).1 = true := by
    intro ids
    induction ids with
    | nil => exact fun _ _ _ => rfl
    | cons id ids ih =>
      intro t hnodup hroom
      obtain ⟨hid, hnodup⟩ := List.nodup_cons.mp hnodup
      have hfits : addAmountWouldOverflow (t.2.get id).totalVotes amount = false := by
        rw [Bool.eq_false_iff, ne_eq, addAmountWouldOverflow_iff]
        exact not_le.mpr (hroom id (by simp))
      have hstep : applyVote amount id t = (true, (applyVote amount id t).2) := by
        simp [applyVote, hfits]
      rw [allApply_cons_of_true hstep]
      refine ih _ hnodup fun k hk => ?_
      have hne : id ≠ k := fun heq => hid (heq ▸ hk)
      have htotal : (applyVote amount id t).2.2.totalFor k = t.2.totalFor k := by
        simp only [applyVote, hfits, Bool.false_eq_true, if_false, Delegates.modify, totalFor_insert,
          if_neg hne]
      rw [htotal]
      exact hroom k (by simp [hk])
  unfold applyVotes
  rw [if_neg Bool.false_ne_true]
  exact hrun _ _ (votes.elems_sorted.imp fun hlt => hlt.ne) h

theorem voteWouldOverflow_eq_false {inp : TxinVote}
    (h : ∀ id ∈ inp.votes.elems, l.delegates.totalFor id + inp.ink.amount.toNat < 2 ^ 64) :
    voteWouldOverflow height false (.vote inp, l) = false := by
  cases hds : onLastVote (l.voteHistories inp.ink.kImage) (unapplyVotes · false) l.delegates with
  | mk r ds =>
    cases r with
    | false => simp [voteWouldOverflow, hds]
    | true =>
      have hfits : (applyVotes height false inp.ink.amount inp.votes ds).1 = true := by
        refine applyVotes_fits fun id hid => ?_
        have hle := onLastVote_total hds id
        have := h id hid
        omega
      simp [voteWouldOverflow, hds, hfits]

end InputTables

namespace Ledger

theorem Replay.engaged {l : Ledger} (h : Replay crypto J Ledger.empty rs l) :
    ∀ r ∈ rs, ∀ inp ∈ r.tx.vin, inp.engaged = true := by
  refine Replay.induction (P := fun rs _ => ∀ r ∈ rs, ∀ inp ∈ r.tx.vin, inp.engaged = true)
    (by simp) (fun hold haddable _ r hr inp hinp => ?_) (fun hold _ => hold) h
  rcases List.mem_append.mp hr with hr | hr
  · exact hold r hr inp hinp
  · obtain rfl := List.mem_singleton.mp hr
    exact (haddable.checked inp hinp).1

theorem Connected.used_mono {base : Ledger} {l : Ledger} (h : Connected crypto base rs l)
    (hused : InputTables.Used inp base.toInputTables) : InputTables.Used inp l.toInputTables := by
  induction h with
  | nil => exact hused
  | add _ haddable hadd ih =>
    obtain ⟨tables, htables, -, rfl⟩ := addTransactionFromBlock_eq_added hadd
    exact ih.of_addInputs haddable.disjoint haddable.checked haddable.fresh htables

end Ledger

namespace Storage

variable {env : Env} {now : UInt64}

theorem voteWouldOverflow_of_validateTx {tx : Transaction} {isMinerTx : Bool}
    (hvalid : s.validateTx env now tx isMinerTx = .ok true) (hinp : inp ∈ tx.vin) :
    InputTables.voteWouldOverflow height false (inp, s.ledger.toInputTables) = false := by
  cases inp with
  | vote v =>
    obtain ⟨i, hi⟩ := checkTxInputsFrom_eq_true (validateTx_eq_true hvalid) _ hinp
    have hcheck : s.checkTxInVote env now tx i v = true := Except.ok.inj hi
    simp only [checkTxInVote, Bool.and_eq_true, List.all_eq_true] at hcheck
    refine InputTables.voteWouldOverflow_eq_false fun id hid => ?_
    have hroom := hcheck.1.2 id hid
    cases hfind : s.ledger.delegates.find? id with
    | none => simp [hfind] at hroom
    | some info =>
      simp only [hfind, Bool.not_eq_eq_eq_not, Bool.not_true] at hroom
      rw [totalFor_of_find hfind]
      by_contra hge
      rw [addAmountWouldOverflow_iff.mpr (not_lt.mp hge)] at hroom
      cases hroom
  | _ => rfl

/-- The trace of an input is there, and no transaction of the chain would take it
back. -/
structure Traced (inp : TxIn) (s : Storage) : Prop where
  used : InputTables.Used inp s.ledger.toInputTables
  others : ∀ id e, s.ledger.transactions id = some e → ∀ a ∈ e.tx.vin,
    a.engaged = true ∧ ¬ a.SameUse inp

theorem purgeTransactionFromBlockchain_traced (h : Traced inp s) (txId : Hash) :
    Returns (s.purgeTransactionFromBlockchain env now txId) fun r =>
      Traced inp r.2 := by
  refine (purgeTransactionFromBlockchain_spec txId s).mono fun r hr => ?_
  obtain ⟨-, pool, hr⟩ := hr
  rw [hr]
  refine ⟨Ledger.purgeTransaction_keeps h.used fun entry hentry a ha t ht => ?_,
    fun id e he => h.others id e (Ledger.purgeTransaction_transactions he)⟩
  obtain ⟨hengaged, hother⟩ := h.others txId entry hentry a ha
  exact ht.of_purgeInput hengaged hother

theorem purgeTransactions_traced (ids : List Hash) (h : Traced inp s) :
    Returns (s.purgeTransactions env now ids) fun r => Traced inp r.2 := by
  induction ids generalizing s with
  | nil => exact Returns.ok_iff.mpr h
  | cons id ids ih =>
    rw [purgeTransactions]
    refine Returns.bind (purgeTransactionFromBlockchain_traced h id) fun r hr => ?_
    exact Returns.bind (ih hr) fun r' hr' => Returns.ok_iff.mpr hr'

theorem purgeBlockDataFromBlockchain_traced (bl : Block) (count : Nat) (h : Traced inp s) :
    Returns (s.purgeBlockDataFromBlockchain env now bl count) fun r => Traced inp r.2 := by
  unfold purgeBlockDataFromBlockchain
  split
  · exact Returns.ok_iff.mpr h
  · exact purgeTransactions_traced _ h

/-- A transaction that is not added because of an overflow was taken back from its
end. -/
theorem enterTransaction_overflow {tx : Transaction} {txId : Hash} {s' : Storage}
    (hpopping : s.poppingBlock = false) (h : s.enterTransaction env tx txId = (false, s')) :
    s'.log = s.log ∨ ∃ tables,
      allApply (InputTables.addInput env.crypto s.entries.length false) tx.vin
        s.ledger.toInputTables = (false, tables) ∧
      (InputTables.firstFailure env.crypto s.entries.length false tx.vin
        s.ledger.toInputTables).any (InputTables.voteWouldOverflow s.entries.length false) = true ∧
      s'.ledger = { s.ledger with
        toInputTables := (allApply InputTables.purgeInput tx.vin.reverse tables).2 } := by
  unfold enterTransaction at h
  split at h
  · simp at h
  · rename_i ledger hadd
    obtain ⟨-, rfl⟩ := Prod.mk.inj h
    rw [hpopping, Ledger.addTransactionFromBlock] at hadd
    split at hadd
    · rename_i tables htables
      obtain ⟨hover, rfl⟩ := Prod.mk.inj hadd
      exact Or.inr ⟨tables, htables, Ledger.AddTxExit.inputsFailed.inj hover, rfl⟩
    · split_ifs at hadd <;> simp at hadd
  · obtain ⟨-, rfl⟩ := Prod.mk.inj h
    exact Or.inl rfl

theorem traced_of_overflow {txId : Hash} {d : TxDetails} {pool : TxMemoryPool} {s₁ : Storage}
    (hvetted : s.Vetted) (hpopping : s.poppingBlock = false)
    (hreplay : Ledger.Replay env.crypto J Ledger.empty rs s.ledger)
    (hd : s.pool.transactions txId = some d)
    (hvalid : validateTx env now { s with pool := pool } d.tx false = .ok true)
    (hadd : enterTransaction env d.tx txId { s with pool := pool } = (false, s₁)) :
    s₁.log = s.log ∨ ∃ inp, ¬ InputTables.Used inp s.ledger.toInputTables ∧ Traced inp s₁ := by
  have hsemantic := hvetted.semantic hd
  have haddable : s.ledger.Addable d.tx.toTransactionPrefix :=
    addable_of_validateTx (s := { s with pool := pool }) hsemantic.engaged hsemantic.disjoint hvalid
  refine (enterTransaction_overflow (s := { s with pool := pool }) hpopping hadd).imp id ?_
  rintro ⟨tables, htables, hover, hledger⟩
  obtain ⟨first, rest, hvin⟩ := List.exists_cons_of_ne_nil hsemantic.nonempty
  have hfirst : first ∈ d.tx.vin := by simp [hvin]
  have hnot : ¬ InputTables.Used first s.ledger.toInputTables := by
    refine InputTables.not_used (haddable.checked first hfirst) (haddable.fresh first hfirst) ?_
    rintro height rfl
    have := List.all_eq_true.mp hsemantic.inputs _ hfirst
    simp at this
  refine ⟨first, hnot, ?_, fun k e he a ha => ?_⟩
  · rw [hledger]
    exact InputTables.Used.of_failed hvin haddable.disjoint haddable.checked haddable.fresh htables
      hover (voteWouldOverflow_of_validateTx (s := { s with pool := pool }) hvalid hfirst)
  · rw [hledger] at he
    obtain ⟨r, hr, -, htx, -⟩ := hreplay.listed.found k e he
    rw [← htx] at ha
    refine ⟨hreplay.engaged r hr a ha, fun hsame => hnot ?_⟩
    exact (InputTables.used_congr hsame).mp (hreplay.used r hr a ha)

theorem PartlyConnected.traced {taken : List Taken} {m s' : Storage} {exit : HandleExit} {txId : Hash}
    (h : PartlyConnected env bl taken s m) (hpopping : s.poppingBlock = false)
    (hreplay : Ledger.Replay env.crypto J Ledger.empty rs s.ledger)
    (hfailed : ConnectFailed env now bl id txId taken.length m exit s') :
    s'.log = s.log ∨ ∃ inp, ¬ InputTables.Used inp s.ledger.toInputTables ∧ Traced inp s' := by
  have hlog : m.log = s.log := by rw [h.sameChain]
  cases hfailed with
  | unknown _ hpurge =>
    rw [(purgeBlockDataFromBlockchain_sameChain ..).out _ hpurge]
    exact Or.inl hlog
  | wrongInputs _ _ hreturn hpurge =>
    have hback := (returnToPool_sameButPool ..).out _ hreturn
    have hpurged := (purgeBlockDataFromBlockchain_sameChain ..).out _ hpurge
    rw [addBlockAsInvalid_log, hpurged, hback]
    exact Or.inl hlog
  | @failed d pool m₁ r r' htake hvalid hadd hreturn hpurge =>
    have hback := (returnToPool_sameButPool ..).out _ hreturn
    have hpopping' : m.poppingBlock = false := by rw [h.sameChain]; exact hpopping
    rcases traced_of_overflow h.vetted hpopping' (hreplay.of_connected h.connected)
      (TxMemoryPool.takeTx_eq_some htake).1 hvalid hadd with hquiet | ⟨inp, hnot, htraced⟩
    · rw [(purgeBlockDataFromBlockchain_sameChain ..).out _ hpurge, hback]
      exact Or.inl (hquiet.trans hlog)
    · have hreturned : Traced inp r.2 := by
        rw [hback]
        exact ⟨htraced.used, htraced.others⟩
      exact Or.inr ⟨inp, fun hused => hnot (h.connected.used_mono hused),
        (purgeBlockDataFromBlockchain_traced _ _ hreturned).out _ hpurge⟩

theorem handleBlockToMainChain_traced (hvetted : s.Vetted) (hpopping : s.poppingBlock = false)
    (hreplay : Ledger.Replay env.crypto J Ledger.empty rs s.ledger) :
    Returns (s.handleBlockToMainChain env now bl id) fun r => r.1 ≠ .added → r.2.log = s.log ∨
      ∃ inp, ¬ InputTables.Used inp s.ledger.toInputTables ∧ Traced inp r.2 := by
  refine ⟨fun ⟨exit, s'⟩ hr hne => ?_⟩
  rcases handleBlockToMainChain_refused hvetted hpopping hr hne with
    rfl | ⟨taken, m, h, ⟨txId, hfailed⟩ | hfailed⟩
  · exact Or.inl rfl
  · exact h.traced hpopping hreplay hfailed
  · rw [hfailed.log_eq, h.sameChain]
    exact Or.inl rfl

end Storage

end Pebblecoin
