import Pebblecoin.MainChainTxs

/-!
The table of delegates as a function of the main chain: who registered, and with
which address.
-/

namespace Pebblecoin

open Containers Control

/-- The delegate that an input registers, and its address. -/
def TxIn.registration? : TxIn → Option (DelegateId × AccountPublicAddress)
  | .registerDelegate inp => some (inp.delegateId, inp.delegateAddress)
  | _ => none

/-- The registrations of the transactions, in order. -/
def registrations (rs : List TxRecord) : List (DelegateId × AccountPublicAddress) :=
  rs.flatMap fun r => r.tx.vin.filterMap TxIn.registration?

theorem registrations_concat (rs : List TxRecord) (r : TxRecord) :
    registrations (rs ++ [r]) = registrations rs ++ r.tx.vin.filterMap TxIn.registration? := by
  simp [registrations]

def Delegates.addressOf (ds : Delegates) (k : DelegateId) : Option AccountPublicAddress :=
  (ds.find? k).map (·.publicAddress)

/-- The table has an entry with the address for each registration and no other.
Neither a delegate nor an address is registered twice. -/
structure Delegates.Registers (regs : List (DelegateId × AccountPublicAddress))
    (ds : Delegates) : Prop where
  ids : (regs.map Prod.fst).Nodup
  addresses : (regs.map Prod.snd).Nodup
  mem_iff : ∀ k a, ds.addressOf k = some a ↔ (k, a) ∈ regs

namespace Delegates.Registers

variable {regs : List (DelegateId × AccountPublicAddress)} {ds ds' : Delegates}

theorem congr (h : Registers regs ds) (heq : ∀ k, ds'.addressOf k = ds.addressOf k) :
    Registers regs ds' :=
  ⟨h.ids, h.addresses, fun k a => by rw [heq k]; exact h.mem_iff k a⟩

theorem eq_of_addressOf (h : Registers regs ds) {k k' : DelegateId} {a : AccountPublicAddress}
    (hk : ds.addressOf k = some a) (hk' : ds.addressOf k' = some a) : k = k' := by
  have hmem := (h.mem_iff k a).mp hk
  have hmem' := (h.mem_iff k' a).mp hk'
  exact congrArg Prod.fst (List.inj_on_of_nodup_map h.addresses hmem hmem' rfl)

theorem insert (h : Registers regs ds) {k : DelegateId} {info : DelegateInfo}
    (hk : ds.contains k = false)
    (haddress : ∀ k' info', ds.find? k' = some info' → info'.publicAddress ≠ info.publicAddress) :
    Registers (regs ++ [(k, info.publicAddress)]) (OrdMap.insert ds k info) := by
  have hnone : ds.find? k = none := by simpa [OrdMap.contains] using hk
  have hregs : ∀ p ∈ regs, p.1 ≠ k ∧ p.2 ≠ info.publicAddress := by
    rintro ⟨k', a⟩ hp
    obtain ⟨info', hinfo', rfl⟩ := Option.map_eq_some_iff.mp ((h.mem_iff k' a).mpr hp)
    refine ⟨?_, haddress k' info' hinfo'⟩
    rintro rfl
    rw [hnone] at hinfo'
    cases hinfo'
  refine ⟨?_, ?_, fun k' a => ?_⟩
  · rw [List.map_append, List.map_singleton, ← List.concat_eq_append]
    refine h.ids.concat fun hmem => ?_
    obtain ⟨p, hp, heq⟩ := List.mem_map.mp hmem
    exact (hregs p hp).1 heq
  · rw [List.map_append, List.map_singleton, ← List.concat_eq_append]
    refine h.addresses.concat fun hmem => ?_
    obtain ⟨p, hp, heq⟩ := List.mem_map.mp hmem
    exact (hregs p hp).2 heq
  · rw [addressOf, OrdMap.find?_insert, List.mem_append, List.mem_singleton, ← h.mem_iff k' a,
      Prod.mk.injEq]
    split_ifs with hkk
    · subst hkk
      simp [addressOf, hnone, eq_comm]
    · simp [addressOf, Ne.symm hkk]

end Delegates.Registers

namespace InputTables

variable {crypto : Crypto} {height : Nat} {popping : Bool} {l l' : InputTables}

theorem addInput_addressOf {inp : TxIn} (hchecked : Checked inp l)
    (h : addInput crypto height popping inp l = (true, l')) {k : DelegateId}
    (hk : inp.registeredId? ≠ some k) :
    l'.delegates.addressOf k = l.delegates.addressOf k := by
  have hcontains := addInput_registers hchecked h hk
  cases hinfo : l'.delegates.find? k with
  | none =>
    have hnone : l.delegates.find? k = none := by
      simpa [OrdMap.contains, hinfo] using hcontains
    rw [Delegates.addressOf, Delegates.addressOf, hinfo, hnone]
  | some info' =>
    rcases addInput_find hchecked h hinfo with ⟨info, hold, heq⟩ | ⟨inp', rfl, rfl, -⟩
    · have hsame : info'.publicAddress = info.publicAddress := congrArg (·.publicAddress) heq
      simp [Delegates.addressOf, hinfo, hold, hsame]
    · exact absurd rfl hk

theorem addInput_registers_registration {inp : TxIn} (hchecked : Checked inp l)
    (hfresh : Fresh inp l) (h : addInput crypto height popping inp l = (true, l'))
    {regs : List (DelegateId × AccountPublicAddress)} (hregs : l.delegates.Registers regs) :
    l'.delegates.Registers (regs ++ inp.registration?.toList) := by
  cases hreg : inp.registration? with
  | none =>
    rw [Option.toList_none, List.append_nil]
    refine hregs.congr fun k => addInput_addressOf hchecked h ?_
    cases inp with
    | registerDelegate inp => simp [TxIn.registration?] at hreg
    | _ => simp [TxIn.registeredId?]
  | some p =>
    cases inp with
    | registerDelegate inp =>
      obtain ⟨-, rfl⟩ := addRegisterDelegate_eq_true h
      obtain rfl : (inp.delegateId, inp.delegateAddress) = p := by
        simpa [TxIn.registration?] using hreg
      have hinserted : Delegates.Registers
          (regs ++ [(inp.delegateId, (newDelegate crypto inp).publicAddress)])
          (OrdMap.insert l.delegates inp.delegateId (newDelegate crypto inp)) :=
        hregs.insert hfresh.1 hfresh.2
      exact hinserted
    | _ => simp [TxIn.registration?] at hreg

theorem addInputs_registers_registrations {vin : List TxIn} (hdisjoint : vin.Pairwise TxIn.Disjoint)
    (hchecked : ∀ inp ∈ vin, Checked inp l) (hfresh : ∀ inp ∈ vin, Fresh inp l)
    (hrun : allApply (addInput crypto height popping) vin l = (true, l'))
    {regs : List (DelegateId × AccountPublicAddress)} (hregs : l.delegates.Registers regs) :
    l'.delegates.Registers (regs ++ vin.filterMap TxIn.registration?) := by
  refine addInputs_induction (P := fun done t =>
    t.delegates.Registers (regs ++ done.filterMap TxIn.registration?)) hdisjoint hchecked hfresh
    (fun done inp t t' hchecked hfresh ht hone => ?_) (by simpa using hregs) hrun
  have hstep := addInput_registers_registration hchecked hfresh hone ht
  rw [List.filterMap_append, ← List.append_assoc]
  cases hreg : inp.registration? with
  | none => simpa [hreg] using hstep
  | some p => simpa [hreg] using hstep

end InputTables

theorem Delegates.Extends.addressOf {ds ds' : Delegates} (h : ds.Extends False ds')
    (k : DelegateId) : ds'.addressOf k = ds.addressOf k := by
  cases ha : ds.find? k with
  | some a =>
    obtain ⟨b, hb, hba⟩ := h.same k a ha
    have hsame : b.publicAddress = a.publicAddress := congrArg (·.publicAddress) hba
    simp [Delegates.addressOf, ha, hb, hsame]
  | none =>
    cases hb : ds'.find? k with
    | none => rw [Delegates.addressOf, Delegates.addressOf, ha, hb]
    | some b => exact absurd (h.created k b ha hb).1 id

theorem Delegates.registers_empty : Ledger.empty.delegates.Registers [] :=
  ⟨List.nodup_nil, List.nodup_nil, fun k a => by
    simp [addressOf, Ledger.empty]⟩

theorem Ledger.Replay.registers {crypto : Crypto} {rs : List TxRecord} {l : Ledger}
    (h : Ledger.Replay crypto False Ledger.empty rs l) :
    l.delegates.Registers (registrations rs) := by
  refine induction (P := fun rs l => l.delegates.Registers (registrations rs))
    Delegates.registers_empty (fun hregs haddable hrun => ?_)
    (fun hregs hext => hregs.congr fun k => hext.tables.delegates.addressOf k) h
  obtain ⟨tables, htables, -, rfl⟩ := addTransactionFromBlock_eq_added hrun
  rw [registrations_concat]
  exact InputTables.addInputs_registers_registrations haddable.disjoint haddable.checked
    haddable.fresh htables hregs

namespace Storage

variable {env : Env} {genesis : Block} {ops : List (UInt64 × Op)} {s : Storage}

/-- The delegates are those that the main chain registers, with their addresses, and
no address has two of them. -/
theorem delegates_eq_mainChain (h : s.ReachedBy env genesis ops)
    (hids : IdsUnique env.crypto genesis ops) (hoverflow : .applyVoteOverflow ∉ s.log)
    (hsigners : ¬ UnknownSigner s.log) :
    s.AllStored ∧
      (∀ k a, (∃ info, s.ledger.delegates.find? k = some info ∧ info.publicAddress = a) ↔
        (k, a) ∈ registrations (s.mainChainTxs env)) ∧
      ∀ k k' info info', s.ledger.delegates.find? k = some info →
        s.ledger.delegates.find? k' = some info' → info.publicAddress = info'.publicAddress →
          k = k' := by
  obtain ⟨recs, hrec⟩ := h.recorded hids hoverflow
  have hregs := (hrec.ledger.mono hsigners).registers
  rw [hrec.mainChainTxs_eq]
  refine ⟨hrec.allStored, fun k a => ?_, fun k k' info info' hk hk' hsame => ?_⟩
  · rw [← hregs.mem_iff k a, Delegates.addressOf, Option.map_eq_some_iff]
  · refine hregs.eq_of_addressOf (a := info.publicAddress) ?_ ?_
    · rw [Delegates.addressOf, hk, Option.map_some]
    · rw [Delegates.addressOf, hk', Option.map_some, hsame]

theorem delegates_eq_mainChain_of_sampleSpending :
    sampleSpending.ledger.delegates.contains 7 = true ∧ sampleSpending.AllStored ∧
      (∀ k a, (∃ info, sampleSpending.ledger.delegates.find? k = some info ∧
        info.publicAddress = a) ↔
          (k, a) ∈ registrations (sampleSpending.mainChainTxs samplePowEnv)) ∧
      ∀ k k' info info', sampleSpending.ledger.delegates.find? k = some info →
        sampleSpending.ledger.delegates.find? k' = some info' →
          info.publicAddress = info'.publicAddress → k = k' := by
  have hcontains : sampleSpending.ledger.delegates.contains 7 = true := by decide +kernel
  have hlog : sampleSpending.log = [] := by decide +kernel
  refine ⟨hcontains, delegates_eq_mainChain sampleSpending_reachedBy sampleSpending_idsUnique
    sampleSpending_quiet ?_⟩
  rintro ⟨d, hd⟩
  simp [hlog] at hd

/-- Two delegate blocks on top of a proof-of-work block. -/
def sampleSignedOps : List (UInt64 × Op) :=
  [samplePowBlock, samplePosBlock, sampleSecondPosBlock].map fun b => (1000, .addNewBlock 0 b)

/-- Below a checkpoint the signer of a block need not be registered, and its
statistics enter it into the table. -/
theorem unknown_signer_in_delegates : ∃ s : Storage,
    s.ReachedBy sampleEnv sampleGenesis sampleSignedOps ∧
      IdsUnique sampleEnv.crypto sampleGenesis sampleSignedOps ∧ .applyVoteOverflow ∉ s.log ∧
      s.ledger.delegates.contains 7 = true ∧ registrations (s.mainChainTxs sampleEnv) = [] := by
  have hplay : ((play sampleEnv 1000 sampleGenesis sampleSignedOps).any fun s =>
      decide (.applyVoteOverflow ∉ s.log) && s.ledger.delegates.contains 7 &&
        decide (registrations (s.mainChainTxs sampleEnv) = [])) = true := by
    decide +kernel
  obtain ⟨s, hs, hfacts⟩ := (Option.any_eq_true _ _).mp hplay
  simp only [Bool.and_eq_true, decide_eq_true_eq] at hfacts
  obtain ⟨⟨hoverflow, hcontains⟩, hnone⟩ := hfacts
  exact ⟨s, reachedBy_of_play_eq hs, by decide +kernel, hoverflow, hcontains, hnone⟩

end Storage

end Pebblecoin
