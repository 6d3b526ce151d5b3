import Pebblecoin.LedgerUndo
import Mathlib.Data.Finset.Insert

/-!
The check that the inputs of one transaction do not conflict with each other.
-/

namespace Pebblecoin

open Wire Containers

variable {icc icc' : TxInputCompatChecker} {inp : TxIn}

structure TxInputCompatChecker where
  kImages : Finset KeyImage
  mintedCurrencies : Finset UInt64
  usedDescriptions : Finset Bytes
  remintedCurrencies : Finset UInt64
  gradedContracts : Finset UInt64
  mintedContracts : UInt64 → Nat
  fusedContracts : UInt64 → Nat
  registeredDelegateIds : Finset DelegateId
  registeredAddresses : Finset AccountPublicAddress

namespace TxInputCompatChecker

def empty : TxInputCompatChecker :=
  ⟨∅, ∅, ∅, ∅, ∅, fun _ => 0, fun _ => 0, ∅, ∅⟩

/-- The checks for mints, new contracts and grades are written the wrong way
round in the source: they ask for a conflict. -/
def canAddInp (icc : TxInputCompatChecker) : TxIn → Bool
  | .toKey inp => inp.kImage ∉ icc.kImages
  | .mint inp =>
    inp.currency ∈ icc.mintedCurrencies &&
      (inp.description ≠ [] && inp.description ∈ icc.usedDescriptions)
  | .remint inp => inp.currency ∉ icc.remintedCurrencies
  | .createContract inp =>
    inp.contract ∈ icc.mintedCurrencies &&
      (inp.description ≠ [] && inp.description ∈ icc.usedDescriptions)
  | .mintContract inp => inp.contract ∉ icc.gradedContracts
  | .gradeContract inp =>
    inp.contract ∈ icc.gradedContracts &&
      (0 < icc.mintedContracts inp.contract && 0 < icc.fusedContracts inp.contract)
  | .resolveBcCoins _ => true
  | .fuseBcCoins inp => inp.contract ∉ icc.gradedContracts
  | .registerDelegate inp =>
    inp.delegateId ∉ icc.registeredDelegateIds &&
      inp.delegateAddress ∉ icc.registeredAddresses
  | .vote inp => inp.ink.kImage ∉ icc.kImages
  | .gen _ | .toScript _ | .toScripthash _ => false

/-- Insert a description unless it is empty; a duplicate is an error. -/
def addDescription (description : Bytes) (icc : TxInputCompatChecker) :
    Option TxInputCompatChecker :=
  if description = [] then some icc
  else if description ∈ icc.usedDescriptions then none
  else some { icc with usedDescriptions := insert description icc.usedDescriptions }

def addKImage (kImage : KeyImage) (icc : TxInputCompatChecker) : Option TxInputCompatChecker :=
  if kImage ∈ icc.kImages then none
  else some { icc with kImages := insert kImage icc.kImages }

def addMintedCurrency (currency : UInt64) (icc : TxInputCompatChecker) :
    Option TxInputCompatChecker :=
  if currency ∈ icc.mintedCurrencies then none
  else some { icc with mintedCurrencies := insert currency icc.mintedCurrencies }

def addInp (icc : TxInputCompatChecker) : TxIn → Option TxInputCompatChecker
  | .toKey inp => icc.addKImage inp.kImage
  | .mint inp => (icc.addMintedCurrency inp.currency).bind (addDescription inp.description)
  | .remint inp =>
    if inp.currency ∈ icc.remintedCurrencies then none
    else some { icc with remintedCurrencies := insert inp.currency icc.remintedCurrencies }
  | .createContract inp =>
    (icc.addMintedCurrency inp.contract).bind (addDescription inp.description)
  | .mintContract inp =>
    some { icc with
      mintedContracts := Function.update icc.mintedContracts inp.contract
        (icc.mintedContracts inp.contract + 1) }
  | .gradeContract inp =>
    if inp.contract ∈ icc.gradedContracts then none
    else some { icc with gradedContracts := insert inp.contract icc.gradedContracts }
  | .resolveBcCoins _ => some icc
  | .fuseBcCoins inp =>
    some { icc with
      fusedContracts := Function.update icc.fusedContracts inp.contract
        (icc.fusedContracts inp.contract + 1) }
  | .registerDelegate inp =>
    if inp.delegateId ∈ icc.registeredDelegateIds ∨
        inp.delegateAddress ∈ icc.registeredAddresses then none
    else some { icc with
      registeredDelegateIds := insert inp.delegateId icc.registeredDelegateIds
      registeredAddresses := insert inp.delegateAddress icc.registeredAddresses }
  | .vote inp => icc.addKImage inp.ink.kImage
  | .gen _ | .toScript _ | .toScripthash _ => none

def addInps (icc : TxInputCompatChecker) : List TxIn → Bool
  | [] => true
  | inp :: ins =>
    icc.canAddInp inp &&
      match icc.addInp inp with
      | none => false
      | some icc' => icc'.addInps ins

def isTxValid (tx : TransactionPrefix) : Bool :=
  empty.addInps tx.vin

end TxInputCompatChecker

def TxIn.registeredAddress? : TxIn → Option AccountPublicAddress
  | .registerDelegate inp => some inp.delegateAddress
  | _ => none

def TxIn.registeredId? : TxIn → Option DelegateId
  | .registerDelegate inp => some inp.delegateId
  | _ => none

/-- Inputs that share no key image and register neither the same delegate nor the
same address. -/
structure TxIn.Disjoint (a b : TxIn) : Prop where
  compatible : InputTables.Compatible a b
  addresses : ∀ addr, a.registeredAddress? = some addr → b.registeredAddress? ≠ some addr
  ids : ∀ id, a.registeredId? = some id → b.registeredId? ≠ some id

namespace TxInputCompatChecker

/-- The checker has recorded this input. -/
structure Covers (icc : TxInputCompatChecker) (inp : TxIn) : Prop where
  kImages : ∀ k, inp.keyImage? = some k → k ∈ icc.kImages
  addresses : ∀ addr, inp.registeredAddress? = some addr → addr ∈ icc.registeredAddresses
  ids : ∀ id, inp.registeredId? = some id → id ∈ icc.registeredDelegateIds

/-- What is recorded stays recorded. -/
structure Grows (icc icc' : TxInputCompatChecker) : Prop where
  kImages : icc.kImages ⊆ icc'.kImages
  addresses : icc.registeredAddresses ⊆ icc'.registeredAddresses
  ids : icc.registeredDelegateIds ⊆ icc'.registeredDelegateIds

theorem Grows.of_eq (hk : icc.kImages = icc'.kImages)
    (ha : icc.registeredAddresses = icc'.registeredAddresses)
    (hid : icc.registeredDelegateIds = icc'.registeredDelegateIds) : icc.Grows icc' :=
  ⟨hk.subset, ha.subset, hid.subset⟩

theorem Covers.grow (h : icc.Covers inp) (hgrows : icc.Grows icc') : icc'.Covers inp :=
  ⟨fun k hk => hgrows.kImages (h.kImages k hk), fun a ha => hgrows.addresses (h.addresses a ha),
    fun id hid => hgrows.ids (h.ids id hid)⟩

theorem addInp_covers (h : icc.addInp inp = some icc') : icc'.Covers inp := by
  cases inp <;>
    simp only [addInp, addKImage] at h <;>
    (try split_ifs at h) <;>
    constructor <;>
    simp_all [TxIn.keyImage?, TxIn.registeredAddress?, TxIn.registeredId?] <;>
    subst h <;> simp

theorem addDescription_grows {d : Bytes} (h : addDescription d icc = some icc') :
    icc.Grows icc' := by
  unfold addDescription at h
  split_ifs at h <;> cases h <;> exact .of_eq rfl rfl rfl

theorem addMintedCurrency_grows {c : UInt64} {d : Bytes}
    (h : (icc.addMintedCurrency c).bind (addDescription d) = some icc') : icc.Grows icc' := by
  obtain ⟨m, hm, hdesc⟩ := Option.bind_eq_some_iff.mp h
  unfold addMintedCurrency at hm
  split_ifs at hm
  cases hm
  exact ⟨(addDescription_grows hdesc).kImages, (addDescription_grows hdesc).addresses,
    (addDescription_grows hdesc).ids⟩

theorem addKImage_grows {k : KeyImage} (h : icc.addKImage k = some icc') : icc.Grows icc' := by
  unfold addKImage at h
  split_ifs at h
  cases h
  exact ⟨Finset.subset_insert _ _, Finset.Subset.refl _, Finset.Subset.refl _⟩

theorem addInp_grows (h : icc.addInp inp = some icc') : icc.Grows icc' := by
  cases inp with
  | toKey _ => exact addKImage_grows h
  | vote _ => exact addKImage_grows h
  | mint _ => exact addMintedCurrency_grows h
  | createContract _ => exact addMintedCurrency_grows h
  | registerDelegate _ =>
    rw [addInp] at h
    split_ifs at h
    cases h
    exact ⟨Finset.Subset.refl _, Finset.subset_insert _ _, Finset.subset_insert _ _⟩
  | remint _ | gradeContract _ =>
    rw [addInp] at h
    split_ifs at h
    cases h
    exact .of_eq rfl rfl rfl
  | mintContract _ | resolveBcCoins _ | fuseBcCoins _ =>
    cases h
    exact .of_eq rfl rfl rfl
  | gen _ | toScript _ | toScripthash _ => cases h

theorem canAddInp_disjoint {a b : TxIn} (ha : icc.Covers a) (hb : icc.canAddInp b = true) :
    a.Disjoint b := by
  constructor
  · intro k hk hbk
    have hmem := ha.kImages k hk
    cases b <;> simp_all [TxIn.keyImage?, canAddInp]
  · intro addr haddr hbaddr
    have hmem := ha.addresses addr haddr
    cases b <;> simp_all [TxIn.registeredAddress?, canAddInp]
  · intro id hid hbid
    have hmem := ha.ids id hid
    cases b <;> simp_all [TxIn.registeredId?, canAddInp]

theorem addInps_disjoint {a : TxIn} {ins : List TxIn} (ha : icc.Covers a)
    (h : icc.addInps ins = true) : ∀ b ∈ ins, a.Disjoint b := by
  induction ins generalizing icc with
  | nil => simp
  | cons inp ins ih =>
    rw [addInps, Bool.and_eq_true] at h
    obtain ⟨hcan, hrest⟩ := h
    split at hrest
    · exact absurd hrest (by simp)
    · rename_i icc' hadd
      intro b hb
      rcases List.mem_cons.mp hb with rfl | hb
      · exact canAddInp_disjoint ha hcan
      · exact ih (ha.grow (addInp_grows hadd)) hrest b hb

theorem addInps_pairwise {ins : List TxIn} (h : icc.addInps ins = true) :
    ins.Pairwise TxIn.Disjoint := by
  induction ins generalizing icc with
  | nil => exact List.Pairwise.nil
  | cons inp ins ih =>
    rw [addInps, Bool.and_eq_true] at h
    obtain ⟨hcan, hrest⟩ := h
    split at hrest
    · exact absurd hrest (by simp)
    · rename_i icc' hadd
      exact List.pairwise_cons.mpr ⟨addInps_disjoint (addInp_covers hadd) hrest, ih hrest⟩

theorem isTxValid_pairwise {tx : TransactionPrefix} (h : isTxValid tx = true) :
    tx.vin.Pairwise TxIn.Disjoint :=
  addInps_pairwise h

end TxInputCompatChecker

end Pebblecoin
