import Pebblecoin.InputProgress

/-!
What a ledger that was built from nothing contains, read off the transactions
that built it.
-/

namespace Pebblecoin

open Control

/-- The key images that the transactions spend, in order. -/
def spentImages (rs : List TxRecord) : List KeyImage :=
  rs.flatMap fun r => r.tx.vin.filterMap TxIn.spentImage?

theorem spentImages_concat (rs : List TxRecord) (r : TxRecord) :
    spentImages (rs ++ [r]) = spentImages rs ++ r.tx.vin.filterMap TxIn.spentImage? := by
  simp [spentImages]

namespace InputTables

/-- The key images of a list are new, pairwise different, and what is spent
afterwards besides what was. -/
structure Spends (images : List KeyImage) (l l' : InputTables) : Prop where
  nodup : images.Nodup
  unspent : ∀ k ∈ images, l.spentKeys k = false
  spent_iff : ∀ k, l'.spentKeys k = true ↔ l.spentKeys k = true ∨ k ∈ images

section AddInputs

variable {crypto : Crypto} {height : Nat} {popping : Bool} {vin : List TxIn} {l l' : InputTables}
  (hdisjoint : vin.Pairwise TxIn.Disjoint) (hchecked : ∀ inp ∈ vin, Checked inp l)
  (hfresh : ∀ inp ∈ vin, Fresh inp l)
  (hrun : allApply (addInput crypto height popping) vin l = (true, l'))

include hdisjoint hchecked hfresh hrun

theorem votesTallied_of_addInputs (h : VotesTallied l) : VotesTallied l' :=
  addInputs_induction (P := fun _ t => VotesTallied t) hdisjoint hchecked hfresh
    (fun _ _ _ _ hchecked _ ht hone => ht.addInput hchecked hone) h hrun

theorem Used.of_addInputs {b : TxIn} (h : Used b l) : Used b l' :=
  addInputs_induction (P := fun _ t => Used b t) hdisjoint hchecked hfresh
    (fun _ _ _ _ hchecked _ ht hone => Used.of_addInput hchecked ht hone) h hrun

theorem used_of_addInputs : ∀ inp ∈ vin, Used inp l' := by
  refine addInputs_induction (P := fun done t => ∀ inp ∈ done, Used inp t) hdisjoint hchecked
    hfresh (fun done inp t t' hchecked _ ht hone b hb => ?_) (by simp) hrun
  rcases List.mem_append.mp hb with hb | hb
  · exact Used.of_addInput hchecked (ht b hb) hone
  · obtain rfl := List.mem_singleton.mp hb
    exact used_of_addInput hchecked hone

theorem spends_of_addInputs : Spends (vin.filterMap TxIn.spentImage?) l l' := by
  refine addInputs_induction (P := fun done t => Spends (done.filterMap TxIn.spentImage?) l t)
    hdisjoint hchecked hfresh (fun done inp t t' hchecked hfresh ht hone => ?_)
    ⟨List.nodup_nil, by simp, by simp⟩ hrun
  have hiff := addInput_spentKeys_iff hchecked hone
  rw [List.filterMap_append, List.filterMap_cons, List.filterMap_nil]
  cases himage : inp.spentImage? with
  | none =>
    refine ⟨by simpa using ht.nodup, by simpa using ht.unspent, fun k => ?_⟩
    rw [hiff k, ht.spent_iff k, himage]
    simp
  | some k₀ =>
    -- the new image is not yet spent, so it differs from the earlier ones
    have hnew : t.spentKeys k₀ = false := by
      cases inp with
      | toKey inp =>
        obtain rfl : inp.kImage = k₀ := by simpa [TxIn.spentImage?] using himage
        exact hfresh
      | _ => simp [TxIn.spentImage?] at himage
    have hnot : ¬ (l.spentKeys k₀ = true ∨ k₀ ∈ done.filterMap TxIn.spentImage?) := by
      rw [← ht.spent_iff k₀, hnew]
      simp
    rw [not_or] at hnot
    refine ⟨?_, ?_, fun k => ?_⟩
    · exact List.nodup_append.mpr ⟨ht.nodup, List.nodup_singleton _, fun a ha b hb heq =>
        hnot.2 (by rw [← List.mem_singleton.mp hb, ← heq]; exact ha)⟩
    · intro k hk
      rcases List.mem_append.mp hk with hk | hk
      · exact ht.unspent k hk
      · rw [List.mem_singleton.mp hk]
        simpa using hnot.1
    · rw [hiff k, ht.spent_iff k, himage, List.mem_append, List.mem_singleton, Option.some.injEq,
        or_assoc, eq_comm (a := k₀)]

end AddInputs

end InputTables

namespace Ledger

/-- The table of transactions lists exactly these, each under an id of its own. -/
structure Listed (rs : List TxRecord) (l : Ledger) : Prop where
  nodup : (rs.map (·.id)).Nodup
  found : ∀ id e, l.transactions id = some e →
    ∃ r ∈ rs, r.id = id ∧ r.tx = e.tx ∧ r.height = e.keeperBlockHeight
  present : ∀ r ∈ rs, ∃ e, l.transactions r.id = some e ∧ e.tx = r.tx ∧
    e.keeperBlockHeight = r.height

namespace Replay

variable {crypto : Crypto} {J : Prop} {rs : List TxRecord} {l : Ledger}

theorem induction {P : List TxRecord → Ledger → Prop} (hempty : P [] Ledger.empty)
    (hadd : ∀ {rs r} {l l₁ : Ledger}, P rs l → l.Addable r.tx.toTransactionPrefix →
      l.addTransactionFromBlock crypto false r.tx r.id r.height = (.added, l₁) → P (rs ++ [r]) l₁)
    (hextends : ∀ {rs} {l l' : Ledger}, P rs l → l.Extends J l' → P rs l')
    (h : Replay crypto J Ledger.empty rs l) : P rs l := by
  induction h with
  | base hbase => exact hextends hempty hbase
  | add _ haddable hrun hext ih => exact hextends (hadd ih haddable hrun) hext

theorem votesTallied (h : Replay crypto J Ledger.empty rs l) : VotesTallied l.toInputTables := by
  refine induction (P := fun _ l => VotesTallied l.toInputTables) votesTallied_empty
    (fun htally haddable hrun => ?_) (fun htally hext => htally.of_extends hext.tables) h
  obtain ⟨tables, htables, -, rfl⟩ := addTransactionFromBlock_eq_added hrun
  exact InputTables.votesTallied_of_addInputs haddable.disjoint haddable.checked haddable.fresh
    htables htally

theorem used (h : Replay crypto J Ledger.empty rs l) :
    ∀ r ∈ rs, ∀ inp ∈ r.tx.vin, InputTables.Used inp l.toInputTables := by
  refine induction (P := fun rs l => ∀ r ∈ rs, ∀ inp ∈ r.tx.vin,
    InputTables.Used inp l.toInputTables) (by simp) (fun hused haddable hrun r' hr' inp hinp => ?_)
    (fun hused hext r hr inp hinp => (hused r hr inp hinp).of_extends hext.tables) h
  obtain ⟨tables, htables, -, rfl⟩ := addTransactionFromBlock_eq_added hrun
  rcases List.mem_append.mp hr' with hr' | hr'
  · exact .of_addInputs haddable.disjoint haddable.checked haddable.fresh htables
      (hused r' hr' inp hinp)
  · obtain rfl := List.mem_singleton.mp hr'
    exact InputTables.used_of_addInputs haddable.disjoint haddable.checked haddable.fresh htables
      inp hinp

theorem spends (h : Replay crypto J Ledger.empty rs l) :
    InputTables.Spends (spentImages rs) Ledger.empty.toInputTables l.toInputTables := by
  refine induction (P := fun rs l => InputTables.Spends (spentImages rs)
    Ledger.empty.toInputTables l.toInputTables) ⟨List.nodup_nil, by simp [spentImages],
      by simp [spentImages]⟩ (fun hspends haddable hrun => ?_) (fun hspends hext => ?_) h
  · obtain ⟨tables, htables, -, rfl⟩ := addTransactionFromBlock_eq_added hrun
    have hone := InputTables.spends_of_addInputs haddable.disjoint haddable.checked haddable.fresh
      htables
    rw [spentImages_concat]
    refine ⟨List.nodup_append.mpr ⟨hspends.nodup, hone.nodup, fun a ha b hb heq => ?_⟩,
      fun k _ => rfl, fun k => ?_⟩
    · have hspent := (hspends.spent_iff a).mpr (Or.inr ha)
      have hunspent := hone.unspent b hb
      rw [← heq, hspent] at hunspent
      cases hunspent
    · rw [hone.spent_iff k, hspends.spent_iff k, List.mem_append, or_assoc]
  · refine ⟨hspends.nodup, hspends.unspent, fun k => ?_⟩
    rw [← hspends.spent_iff k, hext.tables.rest]

theorem listed (h : Replay crypto J Ledger.empty rs l) : Listed rs l := by
  refine induction (P := Listed) ⟨List.nodup_nil, fun _ _ h => (nomatch h), by simp⟩
    (fun {rs r l l₁} hlisted haddable hrun => ?_) (fun {rs l l'} hlisted hext => ?_) h
  · obtain ⟨tables, -, hnone, rfl⟩ := addTransactionFromBlock_eq_added hrun
    have hne : ∀ r' ∈ rs, r'.id ≠ r.id := by
      intro r' hr' heq
      obtain ⟨e, he, -⟩ := hlisted.present r' hr'
      rw [heq, hnone] at he
      cases he
    refine ⟨?_, fun id e he => ?_, fun r' hr' => ?_⟩
    · rw [List.map_append, List.map_singleton]
      refine List.nodup_append.mpr ⟨hlisted.nodup, List.nodup_singleton _, fun a ha b hb heq => ?_⟩
      obtain ⟨r', hr', rfl⟩ := List.mem_map.mp ha
      exact hne r' hr' (heq.trans (List.mem_singleton.mp hb))
    · simp only [Function.update_apply] at he
      split_ifs at he with hid
      · cases he
        exact ⟨r, by simp, hid.symm, rfl, rfl⟩
      · obtain ⟨r', hr', hfound⟩ := hlisted.found id e he
        exact ⟨r', by simp [hr'], hfound⟩
    · rcases List.mem_append.mp hr' with hr' | hr'
      · obtain ⟨e, he, hentry⟩ := hlisted.present r' hr'
        exact ⟨e, by simp [Function.update_of_ne (hne r' hr'), he], hentry⟩
      · obtain rfl := List.mem_singleton.mp hr'
        exact ⟨_, Function.update_self _ _ _, rfl, rfl⟩
  · exact ⟨hlisted.nodup, by rw [hext.transactions]; exact hlisted.found,
      by rw [hext.transactions]; exact hlisted.present⟩

end Replay

end Ledger

end Pebblecoin
