import Pebblecoin.InputConflicts

/-!
Taking the inputs of a transaction out of the checker again.
-/

namespace Pebblecoin

open Wire Containers

variable {icc icc' : TxInputCompatChecker} {ins : List TxIn}

namespace TxInputCompatChecker

def removeKImage (icc : TxInputCompatChecker) (kImage : KeyImage) : Bool × TxInputCompatChecker :=
  (decide (kImage ∈ icc.kImages), { icc with kImages := icc.kImages.erase kImage })

/-- A currency that is not there leaves the description. -/
def removeMintedCurrency (icc : TxInputCompatChecker) (currency : UInt64) (description : Bytes) :
    Bool × TxInputCompatChecker :=
  if currency ∈ icc.mintedCurrencies then
    let icc := { icc with mintedCurrencies := icc.mintedCurrencies.erase currency }
    if description = [] then (true, icc)
    else (decide (description ∈ icc.usedDescriptions),
      { icc with usedDescriptions := icc.usedDescriptions.erase description })
  else (false, icc)

def removeInp (icc : TxInputCompatChecker) : TxIn → Bool × TxInputCompatChecker
  | .toKey inp => icc.removeKImage inp.kImage
  | .mint inp => icc.removeMintedCurrency inp.currency inp.description
  | .remint inp =>
    (decide (inp.currency ∈ icc.remintedCurrencies),
      { icc with remintedCurrencies := icc.remintedCurrencies.erase inp.currency })
  | .createContract inp => icc.removeMintedCurrency inp.contract inp.description
  | .mintContract inp =>
    if 0 < icc.mintedContracts inp.contract then
      (true, { icc with
        mintedContracts := Function.update icc.mintedContracts inp.contract
          (icc.mintedContracts inp.contract - 1) })
    else (false, icc)
  | .gradeContract inp =>
    (decide (inp.contract ∈ icc.gradedContracts),
      { icc with gradedContracts := icc.gradedContracts.erase inp.contract })
  | .resolveBcCoins _ => (true, icc)
  | .fuseBcCoins inp =>
    if 0 < icc.fusedContracts inp.contract then
      (true, { icc with
        fusedContracts := Function.update icc.fusedContracts inp.contract
          (icc.fusedContracts inp.contract - 1) })
    else (false, icc)
  | .registerDelegate inp =>
    (decide (inp.delegateId ∈ icc.registeredDelegateIds) &&
        decide (inp.delegateAddress ∈ icc.registeredAddresses),
      { icc with
        registeredDelegateIds := icc.registeredDelegateIds.erase inp.delegateId
        registeredAddresses := icc.registeredAddresses.erase inp.delegateAddress })
  | .vote inp => icc.removeKImage inp.ink.kImage
  | .gen _ | .toScript _ | .toScripthash _ => (false, icc)

/-- Every input is tried, and it is noted whether one of them failed. -/
def removeInps (icc : TxInputCompatChecker) (failed : Bool) : List TxIn → Bool × TxInputCompatChecker
  | [] => (failed, icc)
  | inp :: ins =>
    let r := icc.removeInp inp
    r.2.removeInps (failed || !r.1) ins

/-- What is returned is whether an input failed. -/
def removeTx (icc : TxInputCompatChecker) (tx : Transaction) : Bool × TxInputCompatChecker :=
  icc.removeInps false tx.vin

theorem AddedOn.eq_of_nil (h : AddedOn icc [] icc') : icc' = icc := by
  obtain ⟨hk, hr, hi, ha, hm, hf, hminted, hdescriptions, hgraded⟩ := h
  cases icc
  cases icc'
  simp only [mk.injEq]
  exact ⟨hk.eq_base, hminted, hdescriptions, hr.eq_base, hgraded, hm.eq_base, hf.eq_base,
    hi.eq_base, ha.eq_base⟩

theorem AddedOn.removeInp {inp : TxIn} (h : AddedOn icc (inp :: ins) icc')
    (hplain : inp.inverted = false) (hsupported : inp.unsupported = false) :
    ∃ icc'', icc'.removeInp inp = (true, icc'') ∧ AddedOn icc ins icc'' := by
  obtain ⟨hk, hr, hi, ha, hm, hf, hminted, hdescriptions, hgraded⟩ := h
  cases inp with
  | mint _ | createContract _ | gradeContract _ => simp [TxIn.inverted] at hplain
  | gen _ | toScript _ | toScripthash _ => simp [TxIn.unsupported] at hsupported
  | toKey inp | vote inp =>
    have hfirst := hk.first rfl
    refine ⟨_, Prod.ext (decide_eq_true hfirst.mem) rfl, hfirst.erase, hr.skip rfl, hi.skip rfl,
      ha.skip rfl, hm.skip rfl, hf.skip rfl, hminted, hdescriptions, hgraded⟩
  | remint inp =>
    have hfirst := hr.first rfl
    exact ⟨_, Prod.ext (decide_eq_true hfirst.mem) rfl, hk.skip rfl, hfirst.erase, hi.skip rfl,
      ha.skip rfl, hm.skip rfl, hf.skip rfl, hminted, hdescriptions, hgraded⟩
  | registerDelegate inp =>
    have hid := hi.first rfl
    have haddress := ha.first rfl
    refine ⟨_, Prod.ext (Bool.and_eq_true_iff.mpr ⟨decide_eq_true hid.mem,
      decide_eq_true haddress.mem⟩) rfl, hk.skip rfl, hr.skip rfl, hid.erase, haddress.erase,
      hm.skip rfl, hf.skip rfl, hminted, hdescriptions, hgraded⟩
  | mintContract inp =>
    have hfirst := hm.first rfl
    exact ⟨_, if_pos hfirst.pos, hk.skip rfl, hr.skip rfl, hi.skip rfl, ha.skip rfl,
      hfirst.lower, hf.skip rfl, hminted, hdescriptions, hgraded⟩
  | fuseBcCoins inp =>
    have hfirst := hf.first rfl
    exact ⟨_, if_pos hfirst.pos, hk.skip rfl, hr.skip rfl, hi.skip rfl, ha.skip rfl, hm.skip rfl,
      hfirst.lower, hminted, hdescriptions, hgraded⟩
  | resolveBcCoins inp =>
    exact ⟨_, rfl, hk.skip rfl, hr.skip rfl, hi.skip rfl, ha.skip rfl, hm.skip rfl, hf.skip rfl,
      hminted, hdescriptions, hgraded⟩

theorem AddedOn.removeInps (h : AddedOn icc ins icc')
    (hknown : ∀ inp ∈ ins, inp.inverted = false ∧ inp.unsupported = false) (failed : Bool) :
    icc'.removeInps failed ins = (failed, icc) := by
  induction ins generalizing icc' with
  | nil => rw [TxInputCompatChecker.removeInps, h.eq_of_nil]
  | cons inp ins ih =>
    obtain ⟨hinp, hins⟩ := List.forall_mem_cons.mp hknown
    obtain ⟨next, hremove, hnext⟩ := h.removeInp hinp.1 hinp.2
    rw [TxInputCompatChecker.removeInps, hremove]
    dsimp only
    rw [Bool.not_true, Bool.or_false, ih hnext hins]

/-- The transaction is taken out again: success is reported, and what can be added is what
could be added before. -/
structure TakenOut (icc icc' : TxInputCompatChecker) (tx : Transaction) : Prop where
  reported : (icc'.removeTx tx).1 = true
  same : ∀ other, (icc'.removeTx tx).2.canAddTx other = icc.canAddTx other

/-- Taking out a transaction that was added brings the checker back to where it was, but what
is returned is that it failed. -/
theorem removeTx_reports_failure {icc icc' : TxInputCompatChecker} {tx : Transaction}
    (hadd : icc.addTx tx = some icc') : icc'.removeTx tx = (false, icc) ∧ ¬ TakenOut icc icc' tx := by
  have hremoved : icc'.removeTx tx = (false, icc) :=
    ((AddedOn.nil icc).addInpsTo hadd).removeInps (known_of_addInpsTo hadd) false
  refine ⟨hremoved, fun h => ?_⟩
  have := h.reported
  rw [hremoved] at this
  cases this

theorem removeTx_reports_failure_of_spend :
    ∃ icc', empty.addTx (sampleSpend 1) = some icc' ∧ icc'.removeTx (sampleSpend 1) = (false, empty) :=
  ⟨_, rfl, (removeTx_reports_failure rfl).1⟩

theorem spend_not_takenOut :
    ∃ icc', empty.addTx (sampleSpend 1) = some icc' ∧ ¬ TakenOut empty icc' (sampleSpend 1) := by
  refine ⟨_, rfl, fun h => ?_⟩
  have := h.reported
  revert this
  decide

end TxInputCompatChecker

end Pebblecoin
