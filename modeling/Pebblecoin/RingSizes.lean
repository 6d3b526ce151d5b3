import Pebblecoin.Rings

/-!
How many outputs the rings of newly selected transfers are mixed with.
-/

namespace Pebblecoin

open Containers Control

namespace WalletTxBuilder

variable {env : WalletEnv} {w : Wallet2} {b b' : WalletTxBuilder} {c : BuilderCall}

/-- The members of a ring other than the output that it is made for. -/
def ringOthers (src : TxSourceEntry) : List (UInt64 × PublicKey) :=
  src.outputs.eraseIdx src.realOutput

section Ring

variable {count idx : Nat} {fakes : FakeOuts} {src : TxSourceEntry} {td : TransferDetails}
  {key : PublicKey} {before after : FakeOuts}

theorem RingOf.ringOthers_eq (h : RingOf w count idx fakes td key before after src) :
    ringOthers src = mixedOuts fakes td.globalOutputIndex count := by
  rw [ringOthers, h.outputs, h.realOutput, h.mixed, List.eraseIdx_append_of_length_le le_rfl,
    Nat.sub_self, List.eraseIdx_cons_zero]

theorem length_otherOuts (fakes : FakeOuts) (g : UInt64) :
    (otherOuts fakes g).length = fakes.countP fun oe => decide (g ≠ oe.1) := by
  rw [otherOuts, ← List.countP_eq_length_filter]
  exact (List.perm_insertionSort _ fakes).countP_eq _

theorem RingOf.le_length_ringOthers_iff (h : RingOf w count idx fakes td key before after src)
    {minimum : Nat} (hmin : minimum ≤ count) :
    minimum ≤ (ringOthers src).length ↔
      minimum ≤ fakes.countP fun oe => decide (td.globalOutputIndex ≠ oe.1) := by
  rw [h.ringOthers_eq, mixedOuts_eq, List.length_take, length_otherOuts]
  omega

end Ring

theorem prepareInputs_rings {count : Nat} {is : List Nat} {answer : List FakeOuts}
    {sources : List TxSourceEntry} (h : prepareInputs w count is answer = .ok sources)
    (hlength : answer.length = is.length) :
    List.Forall₂ (fun p src => ∃ td key before after,
      RingOf w count p.1 p.2 td key before after src) (is.zip answer) sources := by
  induction is generalizing answer sources with
  | nil =>
    rw [← Except.ok.inj h]
    exact List.Forall₂.nil
  | cons idx is ih =>
    obtain ⟨src, hsrc, h⟩ := bind_eq_ok_iff.mp h
    obtain ⟨rest, hrest, rfl⟩ := map_eq_ok_iff.mp h
    cases answer with
    | nil => cases hlength
    | cons fakes answer =>
      exact List.Forall₂.cons (exists_ringOf hsrc) (ih hrest (Nat.succ.inj hlength))

theorem getFakeOutputs_length {session : CallSession} {request minFakeOuts count : Nat}
    {is : List Nat} {answer : List FakeOuts}
    (h : getFakeOutputs session w request is minFakeOuts count = .ok answer) :
    answer.length = is.length := by
  obtain ⟨amounts, hamounts, h⟩ := bind_eq_ok_iff.mp h
  have hlength := length_of_mapM hamounts
  rw [Wallet2.getFakeOutputs] at h
  split at h
  · rw [← Except.ok.inj h, List.length_map, hlength]
  · obtain ⟨outs, -, h⟩ := bind_eq_ok_iff.mp h
    split at h
    · cases h
    rename_i hcount
    split at h
    · cases h
    · rw [← Except.ok.inj h, not_not.mp hcount, hlength]

namespace BuilderCall

def minFakeOuts : BuilderCall → Nat
  | .send _ call => call.minFakeOuts
  | .vote _ call => call.minFakeOuts

def fakeOutsCount : BuilderCall → Nat
  | .send _ call => call.fakeOutputsCount
  | .vote _ call => call.fakeOutsCount

end BuilderCall

/-- The outputs that a call gets for the transfers that it selects. -/
def answerOf (env : WalletEnv) (w : Wallet2) (b : WalletTxBuilder) :
    BuilderCall → Except BuilderError (List FakeOuts)
  | .send session call =>
    getFakeOutputs session w 2 (spendPicks env session w call b).1 call.minFakeOuts
      call.fakeOutputsCount
  | .vote session call =>
    getFakeOutputs session w 1 (votePicks env session w call b).1 call.minFakeOuts
      call.fakeOutsCount

/-- The rings that a call has added for the transfers that it selected; those of batches
come after them. -/
def newRings (env : WalletEnv) (w : Wallet2) (b b' : WalletTxBuilder) (c : BuilderCall) :
    List TxSourceEntry :=
  (b'.txb.sourcesUsed.drop b.txb.sourcesUsed.length).take (picksOf env w b c).1.length

theorem newRings_eq {news rest : List TxSourceEntry} {answer : List FakeOuts} {count : Nat}
    (happends : b'.txb.sourcesUsed = b.txb.sourcesUsed ++ (news ++ rest))
    (hnews : prepareInputs w count (picksOf env w b c).1 answer = .ok news) :
    newRings env w b b' c = news := by
  have hlength := congrArg List.length (prepareInputs_eq_ok env.keys hnews).transfers
  rw [List.length_map] at hlength
  rw [newRings, happends, List.drop_left, ← hlength, List.take_left]

theorem prepareInputs_newRings (h : (perform env w b c).1 = .ok b') :
    ∃ answer, answerOf env w b c = .ok answer ∧ answer.length = (picksOf env w b c).1.length ∧
      prepareInputs w c.fakeOutsCount (picksOf env w b c).1 answer =
        .ok (newRings env w b b' c) := by
  cases c with
  | send session call =>
    obtain ⟨neededMoney, transferIs, batchIs, found, answer, news, batchSources, dests, txb, hpicks,
      -, -, hanswer, hnews, -, -, htxb, rfl⟩ := addSend_inv h
    have hpicks' : (picksOf env w b (.send session call)).1 = transferIs := by
      rw [picksOf, hpicks]
    have happends := (TxBuilder.appends_addSend htxb).sourcesUsed
    refine ⟨answer, ?_, ?_, ?_⟩
    · rw [answerOf, hpicks]
      exact hanswer
    · rw [hpicks', getFakeOutputs_length hanswer]
    · rw [hpicks', newRings_eq (c := .send session call) happends (hpicks' ▸ hnews)]
      exact hnews
  | vote session call =>
    obtain ⟨⟨result, last⟩, hr, rfl⟩ := map_eq_ok_iff.mp h
    rcases addVotes_inv hr with ⟨transferIs, next, scanty, hpicks, -, hnew, rfl⟩ |
      ⟨result', last, scanty, hpicks, hcall, rfl⟩
    · obtain ⟨answer, news, votes, txb, hanswer, hlength, hnews, htxb, rfl⟩ := addNewBatch_inv hnew
      have hpicks' : (picksOf env w b (.vote session call)).1 = transferIs := by
        rw [picksOf, hpicks]
      have happends := (TxBuilder.appends_addVote htxb).sourcesUsed
      rw [← List.append_nil news] at happends
      refine ⟨answer, ?_, ?_, ?_⟩
      · rw [answerOf, hpicks]
        exact hanswer
      · rw [hpicks', hlength]
      · rw [hpicks', newRings_eq (c := .vote session call) happends (hpicks' ▸ hnews)]
        exact hnews
    · have hpicks' : (picksOf env w b (.vote session call)).1 = [] := by
        rw [picksOf, hpicks]
      refine ⟨[], ?_, ?_, ?_⟩
      · rw [answerOf, hpicks]
        rfl
      · rw [hpicks']
        rfl
      · rw [newRings, hpicks']
        rfl

/-- The list for every selected transfer names enough outputs other than its own. -/
def AnswersEnough (env : WalletEnv) (w : Wallet2) (b : WalletTxBuilder) (c : BuilderCall) : Prop :=
  ∀ answer, answerOf env w b c = .ok answer →
    ∀ p ∈ (picksOf env w b c).1.zip answer, ∀ td, w.transfers[p.1]? = some td →
      c.minFakeOuts ≤ p.2.countP fun oe => decide (td.globalOutputIndex ≠ oe.1)

theorem forall_mem_iff_of_forall₂ {α β : Type} {R : α → β → Prop} {P : β → Prop} {Q : α → Prop}
    {l : List α} {l' : List β} (h : List.Forall₂ R l l') (hR : ∀ a b, R a b → (P b ↔ Q a)) :
    (∀ b ∈ l', P b) ↔ ∀ a ∈ l, Q a := by
  induction h with
  | nil => simp
  | cons hab _ ih => rw [List.forall_mem_cons, List.forall_mem_cons, hR _ _ hab, ih]

/-- The new rings have the wanted number of other members exactly if the daemon named so
many others for each. -/
theorem newRings_mixed_iff (env : WalletEnv) (w : Wallet2) (b b' : WalletTxBuilder) (c : BuilderCall)
    (h : (perform env w b c).1 = .ok b') (hmin : c.minFakeOuts ≤ c.fakeOutsCount) :
    (∀ src ∈ newRings env w b b' c, c.minFakeOuts ≤ (ringOthers src).length) ↔
      AnswersEnough env w b c := by
  obtain ⟨answer, hanswer, hlength, hrings⟩ := prepareInputs_newRings h
  have hrings := prepareInputs_rings hrings hlength
  rw [forall_mem_iff_of_forall₂ (Q := fun p => ∀ td, w.transfers[p.1]? = some td →
    c.minFakeOuts ≤ p.2.countP fun oe => decide (td.globalOutputIndex ≠ oe.1)) hrings]
  · rw [AnswersEnough]
    refine ⟨fun hall answer' hanswer' => ?_, fun hall => hall answer hanswer⟩
    rw [hanswer] at hanswer'
    rw [← Except.ok.inj hanswer']
    exact hall
  · rintro p src ⟨td, key, before, after, hring⟩
    rw [hring.le_length_ringOthers_iff hmin]
    refine ⟨fun hle td' htd' => ?_, fun hall => hall td hring.transfer⟩
    rw [hring.transfer] at htd'
    rw [← Option.some.inj htd']
    exact hle

/-- The daemon names these outputs for a transfer, whatever it is asked. -/
def sampleMixedVote (indexes : List UInt64) : BuilderCall :=
  .vote ⟨0, fun _ => 0, fun _ _ _ => .ok [sampleOuts indexes], fun _ is => is⟩
    ⟨1, 1, samplePolicy, 1, OrdSet.ofElems [1], 1⟩

def sampleMixedRings (indexes : List UInt64) (b' : WalletTxBuilder) : List TxSourceEntry :=
  newRings sampleWalletEnv sampleMixer (initTx sampleTxKey 0 []) b' (sampleMixedVote indexes)

theorem newRings_mixed_of_two_outs :
    ∃ b', (perform sampleWalletEnv sampleMixer (initTx sampleTxKey 0 [])
        (sampleMixedVote [5, 7])).1 = .ok b' ∧
      ((sampleMixedRings [5, 7] b').map fun src => src.outputs.map Prod.fst) = [[5, 7]] ∧
      AnswersEnough sampleWalletEnv sampleMixer (initTx sampleTxKey 0 []) (sampleMixedVote [5, 7]) := by
  refine ⟨_, rfl, rfl, ?_⟩
  refine (newRings_mixed_iff sampleWalletEnv sampleMixer (initTx sampleTxKey 0 []) _
    (sampleMixedVote [5, 7]) rfl le_rfl).mp ?_
  decide

/-- The daemon only names the output of the transfer itself. -/
theorem new_ring_of_real_output_only :
    (sampleMixedVote [5]).minFakeOuts = 1 ∧ (sampleMixedVote [5]).fakeOutsCount = 1 ∧
      ∃ b', (perform sampleWalletEnv sampleMixer (initTx sampleTxKey 0 [])
          (sampleMixedVote [5])).1 = .ok b' ∧
        ∃ src ∈ sampleMixedRings [5] b', src.outputs.map Prod.fst = [5] ∧ ringOthers src = [] := by
  exact ⟨rfl, rfl, _, rfl, _, List.mem_cons_self, rfl, rfl⟩

end WalletTxBuilder

end Pebblecoin
