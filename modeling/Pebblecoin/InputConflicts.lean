import Pebblecoin.Containers.Additions
import Pebblecoin.TxInputCompatChecker

/-!
The rule of which inputs conflict, and how far the checker follows it.
-/

namespace Pebblecoin

open Wire Containers

variable {added ins : List TxIn} {icc icc' : TxInputCompatChecker}

namespace TxIn

/-- The currency or contract id that an input creates. -/
def createdId? : TxIn → Option UInt64
  | .mint inp => some inp.currency
  | .createContract inp => some inp.contract
  | _ => none

/-- The description that an input takes; an empty one takes nothing. -/
def description? : TxIn → Option Bytes
  | .mint inp => if inp.description = [] then none else some inp.description
  | .createContract inp => if inp.description = [] then none else some inp.description
  | _ => none

def remintedCurrency? : TxIn → Option UInt64
  | .remint inp => some inp.currency
  | _ => none

def mintedContract? : TxIn → Option UInt64
  | .mintContract inp => some inp.contract
  | _ => none

def fusedContract? : TxIn → Option UInt64
  | .fuseBcCoins inp => some inp.contract
  | _ => none

def gradedContract? : TxIn → Option UInt64
  | .gradeContract inp => some inp.contract
  | _ => none

/-- The contract whose coins an input mints or fuses. -/
def tradedContract? : TxIn → Option UInt64
  | .mintContract inp => some inp.contract
  | .fuseBcCoins inp => some inp.contract
  | _ => none

end TxIn

/-- Both are there and the same. -/
def Shared {α : Type} (a b : Option α) : Prop := ∃ x, a = some x ∧ b = some x

structure TxIn.NoConflict (a b : TxIn) : Prop where
  keyImage : ¬ Shared a.keyImage? b.keyImage?
  created : ¬ Shared a.createdId? b.createdId?
  description : ¬ Shared a.description? b.description?
  reminted : ¬ Shared a.remintedCurrency? b.remintedCurrency?
  graded : ¬ Shared a.gradedContract? b.gradedContract?
  gradedTraded : ¬ Shared a.gradedContract? b.tradedContract?
  tradedGraded : ¬ Shared a.tradedContract? b.gradedContract?
  registeredId : ¬ Shared a.registeredId? b.registeredId?
  registeredAddress : ¬ Shared a.registeredAddress? b.registeredAddress?

/-- No input of the second list conflicts with one of the first or with another
of its own. -/
def NoConflicts (added new : List TxIn) : Prop :=
  (∀ a ∈ added, ∀ b ∈ new, a.NoConflict b) ∧ new.Pairwise TxIn.NoConflict

theorem noConflicts_cons {inp : TxIn} {ins : List TxIn} :
    NoConflicts added (inp :: ins) ↔
      (∀ a ∈ added, a.NoConflict inp) ∧ NoConflicts (added ++ [inp]) ins := by
  simp only [NoConflicts, List.mem_cons, List.mem_append, List.not_mem_nil, or_false,
    List.pairwise_cons, forall_eq_or_imp]
  constructor
  · rintro ⟨hadded, hinp, hins⟩
    refine ⟨fun a ha => (hadded a ha).1, fun a ha b hb => ?_, hins⟩
    rcases ha with ha | rfl
    · exact (hadded a ha).2 b hb
    · exact hinp b hb
  · rintro ⟨hinp, hrest, hins⟩
    exact ⟨fun a ha => ⟨hinp a ha, hrest a (Or.inl ha)⟩, hrest inp (Or.inr rfl), hins⟩

/-- The kinds of input whose check is written the wrong way round. -/
def TxIn.inverted : TxIn → Bool
  | .mint _ | .createContract _ | .gradeContract _ => true
  | _ => false

/-- The kinds of input that the visitors do not know. -/
def TxIn.unsupported : TxIn → Bool
  | .gen _ | .toScript _ | .toScripthash _ => true
  | _ => false

namespace TxInputCompatChecker

def addInpsTo (icc : TxInputCompatChecker) : List TxIn → Option TxInputCompatChecker
  | [] => some icc
  | inp :: ins => if icc.canAddInp inp then (icc.addInp inp).bind (addInpsTo · ins) else none

/-- None if an input is refused. -/
def addTx (icc : TxInputCompatChecker) (tx : Transaction) : Option TxInputCompatChecker :=
  icc.addInpsTo tx.vin

def canAddTx (icc : TxInputCompatChecker) (tx : Transaction) : Bool :=
  (icc.addTx tx).isSome

/-- The checker after the transactions were added, all of them successfully. -/
def addTxs (icc : TxInputCompatChecker) (txs : List Transaction) : Option TxInputCompatChecker :=
  txs.foldlM addTx icc

theorem addInps_eq_isSome (icc : TxInputCompatChecker) (ins : List TxIn) :
    icc.addInps ins = (icc.addInpsTo ins).isSome := by
  induction ins generalizing icc with
  | nil => rfl
  | cons inp ins ih =>
    rw [addInps, addInpsTo]
    cases hcan : icc.canAddInp inp with
    | false => rfl
    | true =>
      cases hadd : icc.addInp inp with
      | none => rfl
      | some icc' =>
        simp only [Bool.true_and, if_true, Option.bind_some]
        exact ih icc'

theorem isTxValid_eq_canAddTx (tx : Transaction) :
    isTxValid tx.toTransactionPrefix = empty.canAddTx tx :=
  addInps_eq_isSome empty tx.vin

/-- The checker has recorded these inputs besides what it had before. -/
structure AddedOn (icc : TxInputCompatChecker) (ins : List TxIn) (icc' : TxInputCompatChecker) :
    Prop where
  kImages : AddedTo icc.kImages (ins.filterMap TxIn.keyImage?) icc'.kImages
  reminted : AddedTo icc.remintedCurrencies (ins.filterMap TxIn.remintedCurrency?)
    icc'.remintedCurrencies
  ids : AddedTo icc.registeredDelegateIds (ins.filterMap TxIn.registeredId?)
    icc'.registeredDelegateIds
  addresses : AddedTo icc.registeredAddresses (ins.filterMap TxIn.registeredAddress?)
    icc'.registeredAddresses
  mintedContracts : CountedOn icc.mintedContracts (ins.filterMap TxIn.mintedContract?)
    icc'.mintedContracts
  fusedContracts : CountedOn icc.fusedContracts (ins.filterMap TxIn.fusedContract?)
    icc'.fusedContracts
  minted : icc'.mintedCurrencies = icc.mintedCurrencies
  descriptions : icc'.usedDescriptions = icc.usedDescriptions
  graded : icc'.gradedContracts = icc.gradedContracts

theorem AddedOn.nil (icc : TxInputCompatChecker) : AddedOn icc [] icc :=
  ⟨.nil _, .nil _, .nil _, .nil _, .nil _, .nil _, rfl, rfl, rfl⟩

/-- An input of an inverted kind is always refused: by the check, or as a
duplicate. -/
theorem refuses_inverted {inp : TxIn} (ins : List TxIn) (h : inp.inverted = true) :
    icc.addInpsTo (inp :: ins) = none := by
  rw [addInpsTo]
  split_ifs with hcan
  · cases inp with
    | mint inp | createContract inp =>
      simp only [canAddInp, Bool.and_eq_true, decide_eq_true_eq] at hcan
      simp [addInp, addMintedCurrency, hcan.1]
    | gradeContract inp =>
      simp only [canAddInp, Bool.and_eq_true, decide_eq_true_eq] at hcan
      simp [addInp, hcan.1]
    | _ => simp [TxIn.inverted] at h
  · rfl

theorem refuses_unsupported {inp : TxIn} (ins : List TxIn) (h : inp.unsupported = true) :
    icc.addInpsTo (inp :: ins) = none := by
  cases inp <;> simp_all [TxIn.unsupported, addInpsTo, canAddInp]

theorem AddedOn.addInp {icc'' : TxInputCompatChecker} {inp : TxIn} (h : AddedOn icc ins icc')
    (hplain : inp.inverted = false) (hadd : icc'.addInp inp = some icc'') :
    AddedOn icc (ins ++ [inp]) icc'' := by
  obtain ⟨hk, hr, hi, ha, hm, hf, hminted, hdescriptions, hgraded⟩ := h
  cases inp with
  | mint _ | createContract _ | gradeContract _ => simp [TxIn.inverted] at hplain
  | gen _ | toScript _ | toScripthash _ => cases hadd
  | toKey inp | vote inp =>
    simp only [TxInputCompatChecker.addInp, addKImage] at hadd
    split_ifs at hadd with hknown
    cases hadd
    exact ⟨hk.enter rfl hknown, hr.keep rfl, hi.keep rfl, ha.keep rfl, hm.keep rfl, hf.keep rfl,
      hminted, hdescriptions, hgraded⟩
  | remint inp =>
    simp only [TxInputCompatChecker.addInp] at hadd
    split_ifs at hadd with hknown
    cases hadd
    exact ⟨hk.keep rfl, hr.enter rfl hknown, hi.keep rfl, ha.keep rfl, hm.keep rfl, hf.keep rfl,
      hminted, hdescriptions, hgraded⟩
  | registerDelegate inp =>
    simp only [TxInputCompatChecker.addInp] at hadd
    split_ifs at hadd with hknown
    obtain ⟨hid, haddress⟩ := not_or.mp hknown
    cases hadd
    exact ⟨hk.keep rfl, hr.keep rfl, hi.enter rfl hid, ha.enter rfl haddress, hm.keep rfl,
      hf.keep rfl, hminted, hdescriptions, hgraded⟩
  | mintContract inp =>
    cases hadd
    exact ⟨hk.keep rfl, hr.keep rfl, hi.keep rfl, ha.keep rfl, hm.enter rfl, hf.keep rfl, hminted,
      hdescriptions, hgraded⟩
  | fuseBcCoins inp =>
    cases hadd
    exact ⟨hk.keep rfl, hr.keep rfl, hi.keep rfl, ha.keep rfl, hm.keep rfl, hf.enter rfl, hminted,
      hdescriptions, hgraded⟩
  | resolveBcCoins inp =>
    cases hadd
    exact ⟨hk.keep rfl, hr.keep rfl, hi.keep rfl, ha.keep rfl, hm.keep rfl, hf.keep rfl, hminted,
      hdescriptions, hgraded⟩

theorem known_of_addInpsTo (h : icc.addInpsTo ins = some icc') :
    ∀ inp ∈ ins, inp.inverted = false ∧ inp.unsupported = false := by
  induction ins generalizing icc with
  | nil => exact List.forall_mem_nil _
  | cons inp ins ih =>
    have hplain : inp.inverted = false := by
      by_contra hinverted
      rw [refuses_inverted ins (by simpa using hinverted)] at h
      cases h
    have hsupported : inp.unsupported = false := by
      by_contra hunsupported
      rw [refuses_unsupported ins (by simpa using hunsupported)] at h
      cases h
    rw [addInpsTo] at h
    split_ifs at h
    obtain ⟨next, -, hrest⟩ := Option.bind_eq_some_iff.mp h
    exact List.forall_mem_cons.mpr ⟨⟨hplain, hsupported⟩, ih hrest⟩

theorem AddedOn.addInpsTo {icc'' : TxInputCompatChecker} {more : List TxIn}
    (h : AddedOn icc ins icc') (hadd : icc'.addInpsTo more = some icc'') :
    AddedOn icc (ins ++ more) icc'' := by
  have hknown := known_of_addInpsTo hadd
  induction more generalizing icc' ins with
  | nil =>
    obtain rfl := Option.some.inj hadd
    rwa [List.append_nil]
  | cons inp more ih =>
    rw [TxInputCompatChecker.addInpsTo] at hadd
    split_ifs at hadd
    obtain ⟨next, hnext, hrest⟩ := Option.bind_eq_some_iff.mp hadd
    obtain ⟨hinp, hmore⟩ := List.forall_mem_cons.mp hknown
    have := ih (h.addInp hinp.1 hnext) hrest hmore
    rwa [List.append_assoc, List.singleton_append] at this

/-- The checker has recorded exactly these inputs, none of which is of an inverted
kind. -/
structure Records (icc : TxInputCompatChecker) (ins : List TxIn) : Prop where
  added : AddedOn empty ins icc
  plain : ∀ a ∈ ins, a.inverted = false

theorem Records.addInpsTo (h : icc.Records added) (hadd : icc.addInpsTo ins = some icc') :
    icc'.Records (added ++ ins) :=
  ⟨h.added.addInpsTo hadd, List.forall_mem_append.mpr
    ⟨h.plain, fun inp hinp => (known_of_addInpsTo hadd inp hinp).1⟩⟩

theorem not_mem_iff_of_addedTo {α : Type} [DecidableEq α] {f : TxIn → Option α} {set : Finset α}
    {x : α} (h : AddedTo ∅ (ins.filterMap f) set) :
    x ∉ set ↔ ∀ a ∈ ins, ¬ Shared (f a) (some x) := by
  rw [h.eq_union]
  simp [Shared]

/-- Inputs of the other kinds conflict over key images, reminted currencies and
registrations only. -/
theorem noConflict_iff_of_plain {a b : TxIn} (ha : a.inverted = false) (hb : b.inverted = false) :
    a.NoConflict b ↔ ¬ Shared a.keyImage? b.keyImage? ∧
      ¬ Shared a.remintedCurrency? b.remintedCurrency? ∧
      ¬ Shared a.registeredId? b.registeredId? ∧
      ¬ Shared a.registeredAddress? b.registeredAddress? := by
  have hnone : ∀ c : TxIn, c.inverted = false →
      c.createdId? = none ∧ c.description? = none ∧ c.gradedContract? = none := by
    intro c hc
    cases c <;> simp_all [TxIn.inverted, TxIn.createdId?, TxIn.description?, TxIn.gradedContract?]
  obtain ⟨hcreated, hdescription, hgraded⟩ := hnone a ha
  obtain ⟨-, -, hgraded'⟩ := hnone b hb
  constructor
  · exact fun h => ⟨h.keyImage, h.reminted, h.registeredId, h.registeredAddress⟩
  · rintro ⟨hkey, hremint, hid, haddress⟩
    refine ⟨hkey, ?_, ?_, hremint, ?_, ?_, ?_, hid, haddress⟩
    · simp [Shared, hcreated]
    · simp [Shared, hdescription]
    · simp [Shared, hgraded]
    · simp [Shared, hgraded]
    · simp [Shared, hgraded']

/-- An input of a kind that is checked properly is taken exactly when it does not
conflict with a recorded one. -/
theorem Records.takes_iff {inp : TxIn} (h : icc.Records ins)
    (hplain : inp.inverted = false) (hsupported : inp.unsupported = false) :
    (icc.canAddInp inp = true ∧ (icc.addInp inp).isSome = true) ↔ ∀ a ∈ ins, a.NoConflict inp := by
  have hiff : (∀ a ∈ ins, a.NoConflict inp) ↔
      (∀ a ∈ ins, ¬ Shared a.keyImage? inp.keyImage?) ∧
      (∀ a ∈ ins, ¬ Shared a.remintedCurrency? inp.remintedCurrency?) ∧
      (∀ a ∈ ins, ¬ Shared a.registeredId? inp.registeredId?) ∧
      (∀ a ∈ ins, ¬ Shared a.registeredAddress? inp.registeredAddress?) := by
    simp only [← forall_and]
    exact forall₂_congr fun a ha => noConflict_iff_of_plain (h.plain a ha) hplain
  have hnone : ∀ {α : Type} (f : TxIn → Option α), ∀ a ∈ ins, ¬ Shared (f a) none := by
    simp [Shared]
  rw [hiff]
  cases inp with
  | mint _ | createContract _ | gradeContract _ => simp [TxIn.inverted] at hplain
  | gen _ | toScript _ | toScripthash _ => simp [TxIn.unsupported] at hsupported
  | toKey inp | vote inp =>
    constructor
    · rintro ⟨hcan, -⟩
      exact ⟨(not_mem_iff_of_addedTo h.added.kImages).mp (by simpa [canAddInp] using hcan), hnone _, hnone _,
        hnone _⟩
    · rintro ⟨hkey, -⟩
      have hnot := (not_mem_iff_of_addedTo h.added.kImages).mpr hkey
      simp [canAddInp, TxInputCompatChecker.addInp, addKImage, hnot]
  | remint inp =>
    constructor
    · rintro ⟨hcan, -⟩
      exact ⟨hnone _, (not_mem_iff_of_addedTo h.added.reminted).mp (by simpa [canAddInp] using hcan), hnone _,
        hnone _⟩
    · rintro ⟨-, hremint, -⟩
      have hnot := (not_mem_iff_of_addedTo h.added.reminted).mpr hremint
      simp [canAddInp, TxInputCompatChecker.addInp, hnot]
  | registerDelegate inp =>
    constructor
    · rintro ⟨hcan, -⟩
      simp only [canAddInp, Bool.and_eq_true, decide_eq_true_eq] at hcan
      exact ⟨hnone _, hnone _, (not_mem_iff_of_addedTo h.added.ids).mp hcan.1, (not_mem_iff_of_addedTo h.added.addresses).mp hcan.2⟩
    · rintro ⟨-, -, hid, haddress⟩
      have hid' := (not_mem_iff_of_addedTo h.added.ids).mpr hid
      have haddress' := (not_mem_iff_of_addedTo h.added.addresses).mpr haddress
      simp [canAddInp, TxInputCompatChecker.addInp, hid', haddress']
  | mintContract inp | fuseBcCoins inp =>
    constructor
    · exact fun _ => ⟨hnone _, hnone _, hnone _, hnone _⟩
    · simp [canAddInp, TxInputCompatChecker.addInp, h.added.graded, empty]
  | resolveBcCoins inp =>
    constructor
    · exact fun _ => ⟨hnone _, hnone _, hnone _, hnone _⟩
    · simp [canAddInp, TxInputCompatChecker.addInp]

theorem Records.addInpsTo_isSome_iff (h : icc.Records added) :
    (icc.addInpsTo ins).isSome = true ↔
      (∀ a ∈ ins, a.inverted = false ∧ a.unsupported = false) ∧ NoConflicts added ins := by
  induction ins generalizing icc added with
  | nil => simp [TxInputCompatChecker.addInpsTo, NoConflicts]
  | cons inp ins ih =>
    rcases Bool.eq_false_or_eq_true inp.inverted with hinverted | hplain
    · simp [refuses_inverted ins hinverted, hinverted]
    rcases Bool.eq_false_or_eq_true inp.unsupported with hunsupported | hsupported
    · simp [refuses_unsupported ins hunsupported, hunsupported]
    rw [noConflicts_cons, ← h.takes_iff hplain hsupported, List.forall_mem_cons,
      TxInputCompatChecker.addInpsTo]
    cases hcan : icc.canAddInp inp with
    | false => simp
    | true =>
      cases hadd : icc.addInp inp with
      | none => simp
      | some icc' =>
        simp only [if_true, Option.bind_some, hplain, hsupported, Option.isSome_some,
          true_and]
        refine ih ⟨h.added.addInp hplain hadd, ?_⟩
        simpa [or_imp, forall_and, hplain] using h.plain

theorem Records.addTxs {txs : List Transaction} (h : icc.Records ins)
    (hadd : icc.addTxs txs = some icc') : icc'.Records (ins ++ txs.flatMap (·.vin)) := by
  induction txs generalizing icc ins with
  | nil =>
    obtain rfl : icc = icc' := by simpa [TxInputCompatChecker.addTxs] using hadd
    simpa using h
  | cons tx txs ih =>
    obtain ⟨m, hm, hrest⟩ := Option.bind_eq_some_iff.mp hadd
    simpa using ih (h.addInpsTo hm) hrest

/-- The checker decides conflicts exactly, unless a transaction without conflict
has an input that it always refuses. -/
theorem canAddTx_iff_noConflicts_iff {added : List Transaction} {icc : TxInputCompatChecker}
    (hadded : empty.addTxs added = some icc) (tx : Transaction) :
    (icc.canAddTx tx = true ↔ NoConflicts (added.flatMap (·.vin)) tx.vin) ↔
      (NoConflicts (added.flatMap (·.vin)) tx.vin →
        ∀ inp ∈ tx.vin, inp.inverted = false ∧ inp.unsupported = false) := by
  have hrecords := Records.addTxs ⟨.nil _, List.forall_mem_nil _⟩ hadded
  rw [List.nil_append] at hrecords
  rw [canAddTx, addTx, hrecords.addInpsTo_isSome_iff]
  exact ⟨fun h hno => (h.mpr hno).1, fun h => ⟨And.right, fun hno => ⟨h hno, hno⟩⟩⟩

/-- A transaction that consists of one input. -/
def sampleInputTx (inp : TxIn) : Transaction where
  version := 1
  unlockTime := 0
  extra := []
  vin := [inp]
  vout := []
  vinCoinTypes := [cpXpb]
  voutCoinTypes := []
  signatures := [[]]

def sampleSpend (k : Nat) : Transaction :=
  sampleInputTx (.toKey ⟨1, [0], Blob.ofNat 32 k⟩)

theorem canAddTx_iff_noConflicts_of_spends :
    ∃ icc, empty.addTxs [sampleSpend 1] = some icc ∧
      (icc.canAddTx (sampleSpend 2) = true ↔
        NoConflicts ([sampleSpend 1].flatMap (·.vin)) (sampleSpend 2).vin) := by
  obtain ⟨icc, hicc⟩ : ∃ icc, empty.addTxs [sampleSpend 1] = some icc :=
    Option.isSome_iff_exists.mp (by decide +kernel)
  refine ⟨icc, hicc, (canAddTx_iff_noConflicts_iff hicc (sampleSpend 2)).mpr fun _ inp hinp => ?_⟩
  obtain rfl : inp = .toKey ⟨1, [0], Blob.ofNat 32 2⟩ := List.mem_singleton.mp hinp
  exact ⟨rfl, rfl⟩

/-- The only input of the first transaction is refused although it conflicts with nothing. -/
def RefusedAlone (inp : TxIn) : Prop :=
  empty.addTxs [] = some empty ∧ NoConflicts [] (sampleInputTx inp).vin ∧
    empty.canAddTx (sampleInputTx inp) = false

theorem refusedAlone_of_canAddTx {inp : TxIn} (h : empty.canAddTx (sampleInputTx inp) = false) :
    RefusedAlone inp :=
  ⟨rfl, ⟨by simp, List.pairwise_singleton _ _⟩, h⟩

/-- The first currency ever minted is refused, and so are the first contract and
the only grade of a contract. -/
theorem canAddTx_refuses_first_mint :
    RefusedAlone (.mint ⟨256, [], 8, 1000, nullPkey⟩) ∧
      RefusedAlone (.createContract ⟨257, [], nullPkey, 0, 1000, 0⟩) ∧
      RefusedAlone (.gradeContract ⟨257, 0, Containers.OrdMap.empty, Blob.ofNat 64 0⟩) := by
  refine ⟨refusedAlone_of_canAddTx ?_, refusedAlone_of_canAddTx ?_, refusedAlone_of_canAddTx ?_⟩
  all_goals decide +kernel

end TxInputCompatChecker

end Pebblecoin
