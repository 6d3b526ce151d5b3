import Pebblecoin.OverflowTraces

/-!
Which votes fit on the totals, told from the votes and the totals before they are entered.
-/

namespace Pebblecoin

open Containers Control

/-- What every key image gives to the delegates, and what they have together, without a
bound. -/
structure Ballot where
  given : KeyImage → DelegateId → Nat
  total : DelegateId → Nat

namespace Ballot

/-- The key image gives this and no longer what it gave before. -/
def give (k : KeyImage) (row : DelegateId → Nat) (b : Ballot) : Ballot where
  given := Function.update b.given k row
  total d := b.total d - b.given k d + row d

end Ballot

namespace TxIn

def votedFor : TxIn → List DelegateId
  | .vote inp => inp.votes.elems
  | _ => []

/-- What the votes are after an input: a spent key gives nothing, a vote replaces the one
before. -/
def cast : TxIn → Ballot → Ballot
  | .toKey inp => .give inp.kImage fun _ => 0
  | .vote inp =>
    .give inp.ink.kImage fun d => if d ∈ inp.votes.elems then inp.ink.amount.toNat else 0
  | _ => id

end TxIn

/-- Whoever is voted for has a total of one word after each of the inputs. -/
def Ballot.Fits : List TxIn → Ballot → Prop
  | [], _ => True
  | inp :: vin, b =>
    (∀ d ∈ inp.votedFor, (inp.cast b).total d < UInt64.size) ∧ Fits vin (inp.cast b)

instance Ballot.decidableFits : (vin : List TxIn) → (b : Ballot) → Decidable (Ballot.Fits vin b)
  | [], _ => .isTrue trivial
  | inp :: vin, b =>
    @instDecidableAnd _ _ (List.decidableBAll _ _) (Ballot.decidableFits vin (inp.cast b))

namespace InputTables

def ballot (l : InputTables) : Ballot := ⟨l.weight, l.delegates.totalFor⟩

variable {crypto : Crypto} {height : Nat} {popping : Bool} {vin : List TxIn} {l l' : InputTables}

theorem amountFor_of_applyVotes {amount : UInt64} {votes : DelegateVotes} {inst : VoteInstance}
    {ds ds' : Delegates} (h : applyVotes height popping amount votes ds = (true, inst, ds')) :
    inst.amountFor = fun d => if d ∈ votes.elems then amount.toNat else 0 := by
  obtain ⟨-, -, hlist, -⟩ := applyVotes_eq_true h
  have hfind : ∀ d v, inst.votes.find? d = some v ↔ d ∈ votes.elems ∧ v = amount := by
    intro d v
    rw [← OrdMap.mem_toList, hlist]
    simp only [List.mem_map, Prod.mk.injEq]
    constructor
    · rintro ⟨_, hid, rfl, rfl⟩
      exact ⟨hid, rfl⟩
    · rintro ⟨hid, rfl⟩
      exact ⟨d, hid, rfl, rfl⟩
  funext d
  split_ifs with hd
  · rw [VoteInstance.amountFor, (hfind d amount).mpr ⟨hd, rfl⟩]
    rfl
  · have hnone : inst.votes.find? d = none :=
      Option.eq_none_iff_forall_ne_some.mpr fun v hv => hd ((hfind d v).mp hv).1
    rw [VoteInstance.amountFor, hnone]
    rfl

/-- The tables keep the votes as they are cast. -/
theorem ballot_of_addInput {inp : TxIn} (hchecked : Checked inp l)
    (h : addInput crypto height popping inp l = (true, l')) : l'.ballot = inp.cast l.ballot := by
  cases inp with
  | gen _ =>
    obtain rfl := (Prod.mk.inj h).2
    rfl
  | toKey inp =>
    obtain ⟨ds, hds, hspent, rfl⟩ := addToKey_eq_true h
    have htotal : ∀ d, ds.totalFor d = l.delegates.totalFor d - l.weight inp.kImage d + 0 := by
      intro d
      have := onLastVote_total hds d
      rw [weight, hspent, if_neg Bool.false_ne_true]
      omega
    rw [ballot, weight_spend, funext htotal]
    rfl
  | registerDelegate inp =>
    obtain ⟨hnone, rfl⟩ := addRegisterDelegate_eq_true h
    rw [ballot, totalFor_registered hnone]
    rfl
  | vote inp =>
    obtain ⟨ds, ds', inst, hspent, hun, happly, rfl⟩ := addVote_eq_true h
    have htotal : ∀ d, ds'.totalFor d =
        l.delegates.totalFor d - l.weight inp.ink.kImage d + inst.amountFor d := by
      intro d
      have htake := onLastVote_total hun d
      have hgive := applyVotes_total happly d
      rw [weight, hspent, if_neg Bool.false_ne_true]
      omega
    rw [ballot, weight_vote _ hspent, funext htotal, amountFor_of_applyVotes happly]
    rfl
  | _ => exact absurd hchecked.1 (by simp [TxIn.engaged])

theorem total_lt (l : InputTables) (d : DelegateId) : l.ballot.total d < UInt64.size :=
  UInt64.toNat_lt _

end InputTables

namespace VotesTallied

open InputTables

variable {l : InputTables}

theorem addInput_eq_true_iff (h : VotesTallied l) {inp : TxIn} (crypto : Crypto) (height : Nat)
    (hchecked : Checked inp l) (hfresh : Fresh inp l) :
    (InputTables.addInput crypto height false inp l).1 = true ↔
      ∀ d ∈ inp.votedFor, (inp.cast l.ballot).total d < UInt64.size := by
  constructor
  · intro hadd d _
    rw [← ballot_of_addInput hchecked (Prod.ext hadd rfl)]
    exact total_lt _ d
  · intro hfits
    rcases h.addInput_progress crypto height hchecked hfresh with ⟨l', hadd⟩ | hover
    · rw [hadd]
    cases inp with
    | vote inp =>
      have hspent : l.spentKeys inp.ink.kImage = false := hfresh
      obtain ⟨ds, hds⟩ := h.onLastVote_progress hspent
      have happly : (applyVotes height false inp.ink.amount inp.votes ds).1 = true := by
        refine applyVotes_fits fun d hd => ?_
        have htake := onLastVote_total hds d
        have hroom : l.delegates.totalFor d - l.weight inp.ink.kImage d +
            (if d ∈ inp.votes.elems then inp.ink.amount.toNat else 0) < 2 ^ 64 := hfits d hd
        rw [weight, hspent, if_neg Bool.false_ne_true, if_pos hd] at hroom
        omega
      rw [voteWouldOverflow, hds] at hover
      simp [happly] at hover
    | _ => cases hover

/-- The inputs of a transaction that passed the checks are all added if its votes fit on
the totals, and only then. -/
theorem addInputs_iff_fits (h : VotesTallied l) {vin : List TxIn} (crypto : Crypto) (height : Nat)
    (hdisjoint : vin.Pairwise TxIn.Disjoint) (hchecked : ∀ inp ∈ vin, Checked inp l)
    (hfresh : ∀ inp ∈ vin, Fresh inp l) :
    (allApply (InputTables.addInput crypto height false) vin l).1 = true ↔ l.ballot.Fits vin := by
  induction vin generalizing l with
  | nil => simp [Ballot.Fits]
  | cons inp vin ih =>
    obtain ⟨hinp, hrest⟩ := List.pairwise_cons.mp hdisjoint
    have hcheckedInp := hchecked inp (by simp)
    have hone := h.addInput_eq_true_iff crypto height hcheckedInp (hfresh inp (by simp))
    cases hstep : InputTables.addInput crypto height false inp l with
    | mk r l₁ =>
      rw [hstep] at hone
      cases r with
      | true =>
        rw [allApply_cons_of_true hstep, Ballot.Fits, and_iff_right (hone.mp rfl),
          ← ballot_of_addInput hcheckedInp hstep]
        exact ih (h.addInput hcheckedInp hstep) hrest
          (fun b hb => Checked.of_addInput (hinp b hb).compatible hcheckedInp
            (hchecked b (by simp [hb])) hstep)
          (fun b hb => Fresh.of_addInput (hinp b hb) hcheckedInp (hfresh b (by simp [hb])) hstep)
      | false =>
        rw [allApply, hstep, Ballot.Fits]
        exact ⟨fun hfalse => (Bool.false_ne_true hfalse).elim, fun hfits => hone.mpr hfits.1⟩

end VotesTallied

namespace Storage

variable {env : Env} {now : UInt64} {s : Storage} {bl : Block} {id : Hash}

/-- No vote is refused if the transaction is entered exactly when its votes fit. -/
theorem enterTransaction_quiet_iff (env : Env) {tx : Transaction} (txId : Hash)
    (hpopping : s.poppingBlock = false) (htallied : VotesTallied s.ledger.toInputTables)
    (haddable : s.ledger.Addable tx.toTransactionPrefix) :
    (s.enterTransaction env tx txId).2.log = s.log ↔ s.ledger.ballot.Fits tx.vin := by
  rw [← htallied.addInputs_iff_fits env.crypto s.entries.length haddable.disjoint haddable.checked
    haddable.fresh, enterTransaction, Ledger.addTransactionFromBlock, hpopping]
  rcases htallied.addInputs_progress env.crypto s.entries.length haddable.disjoint
    haddable.checked haddable.fresh with ⟨tables, hrun⟩ | ⟨⟨tables, hrun⟩, hover⟩
  · rw [hrun]
    dsimp only
    split_ifs <;> simp
  · rw [hrun]
    dsimp only
    rw [hover]
    simp

/-- Of each transaction that the list gets to, in the pool and past the checks, the votes
fit. -/
def VotesFit (env : Env) (now : UInt64) : List Hash → Storage → Prop
  | [], _ => True
  | txId :: rest, s =>
    ∀ t ∈ s.pool.takeTx env.crypto txId,
      validateTx env now { s with pool := t.2 } t.1.tx false = .ok true →
        s.ledger.ballot.Fits t.1.tx.vin ∧
          ((enterTransaction env t.1.tx txId { s with pool := t.2 }).1 = true →
            VotesFit env now rest (enterTransaction env t.1.tx txId { s with pool := t.2 }).2)

instance decidableVotesFit (env : Env) (now : UInt64) :
    (ids : List Hash) → (s : Storage) → Decidable (s.VotesFit env now ids)
  | [], _ => .isTrue trivial
  | _ :: rest, _ =>
    have := decidableVotesFit env now rest
    inferInstanceAs (Decidable (∀ _ ∈ _, _ → _ ∧ (_ → _)))

theorem ConnectFailed.quiet_iff {txId : Hash} {count : Nat} {exit : HandleExit} {s' : Storage}
    (h : ConnectFailed env now bl id txId count s exit s') (hvetted : s.Vetted)
    (hpopping : s.poppingBlock = false) (htallied : VotesTallied s.ledger.toInputTables)
    (P : Storage → Prop) :
    s'.log = s.log ↔ ∀ t ∈ s.pool.takeTx env.crypto txId,
      validateTx env now { s with pool := t.2 } t.1.tx false = .ok true →
        s.ledger.ballot.Fits t.1.tx.vin ∧
          ((enterTransaction env t.1.tx txId { s with pool := t.2 }).1 = true →
            P (enterTransaction env t.1.tx txId { s with pool := t.2 }).2) := by
  cases h with
  | unknown htake hpurge =>
    rw [(purgeBlockDataFromBlockchain_sameChain ..).out _ hpurge]
    simp [htake]
  | wrongInputs htake hvalid hreturn hpurge =>
    rw [addBlockAsInvalid_log, (purgeBlockDataFromBlockchain_sameChain ..).out _ hpurge,
      (returnToPool_sameButPool ..).out _ hreturn]
    simp [htake, hvalid]
  | @failed d pool m p p' htake hvalid hadd hreturn hpurge =>
    have hlog : p'.2.log = m.log := by
      rw [(purgeBlockDataFromBlockchain_sameChain ..).out _ hpurge,
        (returnToPool_sameButPool ..).out _ hreturn]
    have hsemantic := hvetted.semantic (TxMemoryPool.takeTx_eq_some htake).1
    have hquiet := enterTransaction_quiet_iff (s := { s with pool := pool }) env txId
      hpopping htallied (addable_of_validateTx hsemantic.engaged hsemantic.disjoint hvalid)
    rw [hadd] at hquiet
    rw [hlog, hquiet]
    simp [htake, hvalid, hadd]

theorem connectTransactions_quiet_iff {ids : List Hash} {totals : BlockTotals}
    {r : Except HandleExit BlockTotals} {s' : Storage} (hvetted : s.Vetted)
    (hpopping : s.poppingBlock = false) (htallied : VotesTallied s.ledger.toInputTables)
    (h : s.connectTransactions env now bl id ids totals = .ok (r, s')) :
    s'.log = s.log ↔ s.VotesFit env now ids := by
  induction ids generalizing s totals with
  | nil =>
    obtain ⟨-, rfl⟩ := Prod.mk.inj (Except.ok.inj h)
    simp [VotesFit]
  | cons txId ids ih =>
    rw [VotesFit]
    rcases connectTransactions_cons h with ⟨exit, -, hfailed⟩ | ⟨d, m, hone, hrest⟩
    · exact hfailed.quiet_iff hvetted hpopping htallied _
    have haddable := hone.addable hvetted
    have hpopping' : m.poppingBlock = false := by rw [hone.frame]; exact hpopping
    have hlog : m.log = s.log := by rw [hone.frame]
    have htallied' : VotesTallied m.ledger.toInputTables := by
      obtain ⟨tables, htables, -, hl⟩ := Ledger.addTransactionFromBlock_eq_added hone.added
      rw [hl]
      exact InputTables.votesTallied_of_addInputs haddable.disjoint haddable.checked
        haddable.fresh htables htallied
    have hfits : s.ledger.ballot.Fits d.tx.vin := by
      have hquiet := enterTransaction_quiet_iff (s := { s with pool := m.pool }) env txId
        hpopping htallied haddable
      rw [hone.entered] at hquiet
      exact hquiet.mp hlog
    have hquiet := ih (hone.allTxs hvetted) hpopping' htallied' hrest
    rw [hlog] at hquiet
    rw [hquiet]
    simp [hone.taken, hone.valid, hone.entered, hfits]

/-- The votes of every transaction that the block gets to fit. -/
def BlockVotesFit (env : Env) (now : UInt64) (bl : Block) (id : Hash) (s : Storage) : Prop :=
  s.checkBlockHeader env now bl id = .ok none → s.validateTx env now bl.minerTx true = .ok true →
    (s.enterTransaction env bl.minerTx (minerRecord env bl s).id).1 = true →
      (s.enterTransaction env bl.minerTx (minerRecord env bl s).id).2.VotesFit env now bl.txHashes

instance decidableBlockVotesFit (env : Env) (now : UInt64) (bl : Block) (id : Hash) (s : Storage) :
    Decidable (s.BlockVotesFit env now bl id) :=
  inferInstanceAs (Decidable (_ → _ → _ → _))

theorem handleBlockToMainChain_quiet_iff {exit : HandleExit} {s' : Storage} (hvetted : s.Vetted)
    (hpopping : s.poppingBlock = false) (htallied : VotesTallied s.ledger.toInputTables)
    (h : s.handleBlockToMainChain env now bl id = .ok (exit, s')) (hne : exit ≠ .added) :
    s'.log = s.log ↔ s.BlockVotesFit env now bl id := by
  unfold BlockVotesFit
  obtain ⟨header, hheader, h⟩ := reading_bind_eq_ok_iff.mp h
  cases header with
  | some exit' =>
    obtain ⟨-, rfl⟩ := Prod.mk.inj (Except.ok.inj h)
    simp [hheader]
  | none =>
  obtain ⟨-, -, -, -, -, hpre⟩ := checkBlockHeader_eq_none hheader
  obtain ⟨g, hvin, -⟩ := prevalidateMinerTransaction_vin hpre
  obtain ⟨valid, hvalid, h⟩ := reading_bind_eq_ok_iff.mp h
  cases valid with
  | false =>
    obtain ⟨-, rfl⟩ := Prod.mk.inj (Except.ok.inj h)
    simp [hvalid]
  | true =>
  obtain ⟨⟨added, m⟩, hadd, h⟩ := bind_eq_ok_iff.mp h
  have hadd : s.enterTransaction env bl.minerTx (minerRecord env bl s).id = (added, m) :=
    addTransactionFromBlock_eq_ok hadd
  cases added with
  | false =>
    obtain ⟨-, rfl⟩ := Prod.mk.inj (Except.ok.inj h)
    obtain rfl := enterTransaction_miner_eq_false hvin hadd
    simp [hadd]
  | true =>
  obtain ⟨l, hl, rfl⟩ := enterTransaction_eq_true hadd
  rw [hpopping] at hl
  have haddable : s.ledger.Addable bl.minerTx.toTransactionPrefix :=
    addable_of_validateTx (by simp [hvin, TxIn.engaged]) (by simp [hvin]) hvalid
  have htallied' : VotesTallied l.toInputTables := by
    obtain ⟨tables, htables, -, rfl⟩ := Ledger.addTransactionFromBlock_eq_added hl
    exact InputTables.votesTallied_of_addInputs haddable.disjoint haddable.checked
      haddable.fresh htables htallied
  obtain ⟨⟨r, t⟩, hr, h⟩ := bind_eq_ok_iff.mp h
  have hquiet := connectTransactions_quiet_iff (hvetted.addMiner hvin hl) hpopping htallied' hr
  have hlog : s'.log = t.log := by
    cases r with
    | error exit' =>
      obtain ⟨-, rfl⟩ := Prod.mk.inj (Except.ok.inj h)
      rfl
    | ok totals => exact (appendBlock_refused h hne).log_eq
  rw [hlog, hquiet]
  simp [hheader, hvalid, hadd]

end Storage

end Pebblecoin
