import Pebblecoin.VoteTally

/-!
Inputs that passed the checks are added, unless a vote overflows.
-/

namespace Pebblecoin

open Containers Control

/-- The key image that an input spends; a vote spends nothing. -/
def TxIn.spentImage? : TxIn → Option KeyImage
  | .toKey inp => some inp.kImage
  | _ => none

namespace InputTables

variable {crypto : Crypto} {height : Nat} {popping : Bool} {l l' : InputTables}

theorem addInput_spentKeys_iff {inp : TxIn} (hchecked : Checked inp l)
    (h : addInput crypto height popping inp l = (true, l')) (k : KeyImage) :
    l'.spentKeys k = true ↔ l.spentKeys k = true ∨ inp.spentImage? = some k := by
  cases addInput_added hchecked h with
  | gen | registerDelegate | vote _ _ _ => simp [TxIn.spentImage?]
  | toKey inp =>
    by_cases hk : k = inp.kImage
    · simp [TxIn.spentImage?, hk]
    · simp [TxIn.spentImage?, Function.update_of_ne hk, Ne.symm hk]

theorem addInput_spentKeys {inp : TxIn} (hchecked : Checked inp l)
    (h : addInput crypto height popping inp l = (true, l')) {k : KeyImage}
    (hk : inp.keyImage? ≠ some k) : l'.spentKeys k = l.spentKeys k := by
  rw [Bool.eq_iff_iff, addInput_spentKeys_iff hchecked h]
  refine or_iff_left fun himage => hk ?_
  cases inp with
  | toKey inp => exact himage
  | _ => cases himage

theorem addInput_registers {inp : TxIn} (hchecked : Checked inp l)
    (h : addInput crypto height popping inp l = (true, l')) {d : DelegateId}
    (hd : inp.registeredId? ≠ some d) :
    l'.delegates.contains d = l.delegates.contains d := by
  cases addInput_added hchecked h with
  | gen => rfl
  | toKey _ hsame | vote _ _ hsame => exact (hsame.contains_eq d).symm
  | registerDelegate inp =>
    have hne : inp.delegateId ≠ d := by
      rintro rfl
      exact hd rfl
    simp [OrdMap.contains, OrdMap.find?_insert_ne _ _ hne]

/-- A delegate is one of before, perhaps with other votes, or has just been
registered. -/
theorem addInput_find {inp : TxIn} (hchecked : Checked inp l)
    (h : addInput crypto height popping inp l = (true, l')) {k : DelegateId} {info' : DelegateInfo}
    (hinfo : l'.delegates.find? k = some info') :
    (∃ info, l.delegates.find? k = some info ∧ info'.withoutVotes = info.withoutVotes) ∨
      ∃ inp', inp = .registerDelegate inp' ∧ k = inp'.delegateId ∧
        info' = newDelegate crypto inp' := by
  cases addInput_added hchecked h with
  | gen => exact Or.inl ⟨info', hinfo, rfl⟩
  | toKey _ hsame | vote _ _ hsame =>
    have hk := hsame k
    rw [hinfo, Option.map_some] at hk
    obtain ⟨info, hinfo, heq⟩ := Option.map_eq_some_iff.mp hk
    exact Or.inl ⟨info, hinfo, heq.symm⟩
  | registerDelegate inp =>
    simp only [OrdMap.find?_insert] at hinfo
    split_ifs at hinfo with hk
    · exact Or.inr ⟨inp, rfl, hk.symm, (Option.some.inj hinfo).symm⟩
    · exact Or.inl ⟨info', hinfo, rfl⟩

theorem Fresh.of_addInput {a b : TxIn} (hdisjoint : a.Disjoint b) (ha : Checked a l)
    (hb : Fresh b l) (h : addInput crypto height popping a l = (true, l')) : Fresh b l' := by
  cases b with
  | toKey inp =>
    have hk : a.keyImage? ≠ some inp.kImage := fun hk => hdisjoint.compatible _ hk rfl
    exact (addInput_spentKeys ha h hk).trans hb
  | vote inp =>
    have hk : a.keyImage? ≠ some inp.ink.kImage := fun hk => hdisjoint.compatible _ hk rfl
    exact (addInput_spentKeys ha h hk).trans hb
  | registerDelegate inp =>
    have hd : a.registeredId? ≠ some inp.delegateId := fun hd => hdisjoint.ids _ hd rfl
    refine ⟨(addInput_registers ha h hd).trans hb.1, fun k info' hinfo' haddress => ?_⟩
    rcases addInput_find ha h hinfo' with ⟨info, hinfo, heq⟩ | ⟨inp', rfl, -, rfl⟩
    · have heq' : info'.publicAddress = info.publicAddress := congrArg (·.publicAddress) heq
      exact hb.2 k info hinfo (heq'.symm.trans haddress)
    · exact hdisjoint.addresses _ rfl (congrArg some haddress.symm)
  | _ => trivial

end InputTables

theorem unapplyVote_progress {expected : UInt64} {item : DelegateId × UInt64} {ds : Delegates}
    (hknown : ds.contains item.1 = true) (hle : item.2.toNat ≤ ds.totalFor item.1) :
    ∃ ds', unapplyVote expected false item ds = (true, ds') := by
  obtain ⟨info, hinfo⟩ := Delegates.contains_iff.mp hknown
  rw [totalFor_of_find hinfo] at hle
  have hsub : subAmount info.totalVotes item.2 = some (info.totalVotes - item.2) := by
    refine subAmount_eq_some_iff.mpr ?_
    rw [UInt64.toNat_sub_of_le _ _ (UInt64.le_iff_toNat_le.mpr hle)]
    omega
  exact ⟨_, by simp only [unapplyVote, hinfo, hsub, Bool.false_and, Bool.false_eq_true, if_false]; rfl⟩

theorem unapplyVotes_progress {inst : VoteInstance} {ds : Delegates}
    (hknown : ∀ d, inst.votes.contains d = true → ds.contains d = true)
    (hle : ∀ d, inst.amountFor d ≤ ds.totalFor d) :
    ∃ ds', unapplyVotes inst false ds = (true, ds') := by
  have hrun : ∀ (items : List (DelegateId × UInt64)) (ds : Delegates),
      (∀ item ∈ items, ds.contains item.1 = true) → (∀ d, itemsFor items d ≤ ds.totalFor d) →
        ∃ ds', allApply (unapplyVote inst.expectedVote false) items ds = (true, ds') := by
    intro items
    induction items with
    | nil => exact fun ds _ _ => ⟨ds, rfl⟩
    | cons item items ih =>
      intro ds hknown hle
      have hitem : item.2.toNat ≤ ds.totalFor item.1 := by
        have := hle item.1
        rw [itemsFor_cons, if_pos rfl] at this
        omega
      obtain ⟨ds₁, hone⟩ : ∃ ds₁, unapplyVote inst.expectedVote false item ds = (true, ds₁) :=
        unapplyVote_progress (hknown item (by simp)) hitem
      have hsame : ds.SameButVotes ds₁ := by
        obtain ⟨info, total, hinfo, -, rfl⟩ := unapplyVote_eq_true hone
        exact .insert total hinfo
      obtain ⟨ds', hds'⟩ := ih ds₁
        (fun item' hitem' => by
          rw [← hsame.contains_eq]
          exact hknown item' (by simp [hitem']))
        (fun d => by
          have htotal := unapplyVote_total hone d
          have := hle d
          rw [itemsFor_cons] at this
          omega)
      exact ⟨ds', by rw [allApply_cons_of_true hone, hds']⟩
  refine hrun _ ds (fun item hitem => ?_) (fun d => ?_)
  · have hmem := OrdMap.mem_toList.mp (List.mem_reverse.mp hitem)
    exact hknown _ (by rw [OrdMap.contains, hmem]; rfl)
  · rw [itemsFor_reverse, itemsFor_toList]
    exact hle d

namespace VotesTallied

open InputTables

variable {l : InputTables}

theorem onLastVote_progress (h : VotesTallied l) {k : KeyImage} (hk : l.spentKeys k = false) :
    ∃ ds, onLastVote (l.voteHistories k) (unapplyVotes · false) l.delegates = (true, ds) := by
  unfold onLastVote
  split
  · exact ⟨_, rfl⟩
  · rename_i inst hlast
    refine unapplyVotes_progress (fun d hd => h.known k inst d hk hlast hd) fun d => ?_
    have := h.tally.le_total k d
    simpa [InputTables.weight, hk, lastAmountFor, hlast] using this

theorem addInput_progress (h : VotesTallied l) {inp : TxIn} (crypto : Crypto) (height : Nat)
    (hchecked : Checked inp l) (hfresh : Fresh inp l) :
    (∃ l', InputTables.addInput crypto height false inp l = (true, l')) ∨
      voteWouldOverflow height false (inp, l) = true := by
  cases inp with
  | gen _ => exact Or.inl ⟨l, rfl⟩
  | toKey inp =>
    have hspent : l.spentKeys inp.kImage = false := hfresh
    obtain ⟨ds, hds⟩ := h.onLastVote_progress hspent
    exact Or.inl ⟨_, by simp only [InputTables.addInput, InputTables.addToKey, hds, hspent]; rfl⟩
  | registerDelegate inp =>
    have hnone : l.delegates.find? inp.delegateId = none := by
      have : l.delegates.contains inp.delegateId = false := hfresh.1
      simpa [OrdMap.contains] using this
    exact Or.inl ⟨_, by simp only [InputTables.addInput, InputTables.addRegisterDelegate, hnone]; rfl⟩
  | vote inp =>
    have hspent : l.spentKeys inp.ink.kImage = false := hfresh
    obtain ⟨ds, hds⟩ := h.onLastVote_progress hspent
    cases happly : applyVotes height false inp.ink.amount inp.votes ds with
    | mk r p =>
      cases r with
      | false => exact Or.inr (by simp [voteWouldOverflow, hds, happly])
      | true =>
        exact Or.inl ⟨_, by
          simp only [InputTables.addInput, InputTables.addVote, hspent, hds, happly]; rfl⟩
  | _ => exact absurd hchecked.1 (by simp [TxIn.engaged])

/-- The inputs of a transaction that passed the checks are all added, or a vote
is refused because a total would overflow. -/
theorem addInputs_progress (h : VotesTallied l) {vin : List TxIn} (crypto : Crypto) (height : Nat)
    (hdisjoint : vin.Pairwise TxIn.Disjoint) (hchecked : ∀ inp ∈ vin, Checked inp l)
    (hfresh : ∀ inp ∈ vin, Fresh inp l) :
    (∃ l', allApply (InputTables.addInput crypto height false) vin l = (true, l')) ∨
      (∃ l', allApply (InputTables.addInput crypto height false) vin l = (false, l')) ∧
        (firstFailure crypto height false vin l).any (voteWouldOverflow height false) = true := by
  induction vin generalizing l with
  | nil => exact Or.inl ⟨l, rfl⟩
  | cons inp vin ih =>
    obtain ⟨hinp, hrest⟩ := List.pairwise_cons.mp hdisjoint
    have hcheckedInp := hchecked inp (by simp)
    cases hstep : InputTables.addInput crypto height false inp l with
    | mk r l₁ =>
      cases r with
      | true =>
        have htail := ih (h.addInput hcheckedInp hstep) hrest
          (fun b hb => Checked.of_addInput (hinp b hb).compatible hcheckedInp
            (hchecked b (by simp [hb])) hstep)
          (fun b hb => Fresh.of_addInput (hinp b hb) hcheckedInp (hfresh b (by simp [hb])) hstep)
        rw [allApply_cons_of_true hstep]
        simp only [firstFailure, hstep]
        exact htail
      | false =>
        rcases h.addInput_progress crypto height hcheckedInp (hfresh inp (by simp)) with
          ⟨l', hl'⟩ | hover
        · rw [hstep] at hl'
          cases hl'
        · refine Or.inr ⟨⟨l₁, by rw [allApply, hstep]⟩, ?_⟩
          simp only [firstFailure, hstep, Option.any_some, hover]

end VotesTallied

namespace InputTables

/-- What an input leaves behind once it is added. -/
def Used : TxIn → InputTables → Prop
  | .toKey inp, l => l.spentKeys inp.kImage = true
  | .vote inp, l => inp.seq.toNat < (l.voteHistories inp.ink.kImage).length
  | .registerDelegate inp, l => l.delegates.contains inp.delegateId = true
  | _, _ => True

variable {crypto : Crypto} {height : Nat} {popping : Bool} {l l' : InputTables}

theorem addInput_voteHistories_le {inp : TxIn} (hchecked : Checked inp l)
    (h : addInput crypto height popping inp l = (true, l')) (k : KeyImage) :
    (l.voteHistories k).length ≤ (l'.voteHistories k).length := by
  cases addInput_added hchecked h with
  | gen | toKey _ _ | registerDelegate => exact le_rfl
  | vote inp =>
    by_cases hk : k = inp.ink.kImage
    · simp [hk]
    · simp [Function.update_of_ne hk]

theorem used_of_addInput {inp : TxIn} (hchecked : Checked inp l)
    (h : addInput crypto height popping inp l = (true, l')) : Used inp l' := by
  cases inp with
  | toKey inp => exact (addInput_spentKeys_iff hchecked h _).mpr (Or.inr rfl)
  | vote inp =>
    obtain ⟨hseq, -⟩ := hchecked.2 inp rfl
    obtain ⟨ds, ds', inst, -, -, -, rfl⟩ := addVote_eq_true h
    simp [Used, hseq]
  | registerDelegate inp =>
    obtain ⟨-, rfl⟩ := addRegisterDelegate_eq_true h
    simp [Used, OrdMap.contains]
  | _ => trivial

theorem Used.of_addInput {a b : TxIn} (ha : Checked a l) (hb : Used b l)
    (h : addInput crypto height popping a l = (true, l')) : Used b l' := by
  cases b with
  | toKey inp => exact (addInput_spentKeys_iff ha h _).mpr (Or.inl hb)
  | vote inp => exact Nat.lt_of_lt_of_le hb (addInput_voteHistories_le ha h _)
  | registerDelegate inp => exact addInput_contains ha h hb
  | _ => trivial

theorem Used.of_extends {J : Prop} {inp : TxIn} (h : Used inp l) (hext : l.Extends J l') :
    Used inp l' := by
  cases inp with
  | toKey inp =>
    rw [hext.rest]
    exact h
  | vote inp =>
    rw [hext.rest]
    exact h
  | registerDelegate inp => exact hext.delegates.contains h
  | _ => trivial

theorem not_used {inp : TxIn} (hchecked : Checked inp l) (hfresh : Fresh inp l)
    (hgen : ∀ height, inp ≠ .gen height) : ¬ Used inp l := by
  intro hused
  cases inp with
  | gen height => exact hgen height rfl
  | toKey inp =>
    have hspent : l.spentKeys inp.kImage = true := hused
    have hfresh : l.spentKeys inp.kImage = false := hfresh
    rw [hfresh] at hspent
    cases hspent
  | vote inp =>
    have hlt : inp.seq.toNat < (l.voteHistories inp.ink.kImage).length := hused
    obtain ⟨hseq, -⟩ := hchecked.2 inp rfl
    omega
  | registerDelegate inp =>
    have hknown : l.delegates.contains inp.delegateId = true := hused
    rw [hfresh.1] at hknown
    cases hknown
  | _ => exact absurd hchecked.1 (by simp [TxIn.engaged])

/-- What is kept by adding an input that passed the checks is kept by adding all
inputs of a transaction. -/
theorem addInputs_induction {P : List TxIn → InputTables → Prop} {vin : List TxIn}
    (hdisjoint : vin.Pairwise TxIn.Disjoint) (hchecked : ∀ inp ∈ vin, Checked inp l)
    (hfresh : ∀ inp ∈ vin, Fresh inp l)
    (hstep : ∀ done inp {l l' : InputTables}, Checked inp l → Fresh inp l → P done l →
      addInput crypto height popping inp l = (true, l') → P (done ++ [inp]) l')
    (hl : P [] l) (h : allApply (addInput crypto height popping) vin l = (true, l')) :
    P vin l' := by
  refine allApply_induction (G := fun inp t => Checked inp t ∧ Fresh inp t)
    (fun hdisjoint ha hb hone => ?_) hdisjoint (fun inp hinp => ⟨hchecked inp hinp, hfresh inp hinp⟩)
    (fun done inp _ _ hgood => hstep done inp hgood.1 hgood.2) hl h
  exact ⟨Checked.of_addInput hdisjoint.compatible ha.1 hb.1 hone,
    Fresh.of_addInput hdisjoint ha.1 hb.2 hone⟩

end InputTables

end Pebblecoin
