import Pebblecoin.ChainWork
import Pebblecoin.Containers.LruCache
import Pebblecoin.MainChainTxs
import Pebblecoin.Wire.Words

/-!
The average of past fees as the node computes it, with the fees of the blocks it has
asked for in a cache, and what the average is over the day before a block.
-/

namespace Pebblecoin

open Containers Control Wire

/-- The fees of blocks by their ids. -/
abbrev FeeCache := LruCache Hash UInt64 17500

namespace Storage

def getBlockFeesCached (s : Storage) (bent : BlockchainEntry) (c : FeeCache) :
    Except Thrown (UInt64 × FeeCache) :=
  match c.get? bent.hash with
  | some r => .ok r
  | none => do
    let fees ← s.getBlockFees bent
    .ok (fees, c.put bent.hash fees)

def feesOfPastDayCached (s : Storage) (endTimestamp : UInt64) :
    List BlockchainEntry → (used : Nat) → (sum : UInt64) → FeeCache →
      Except Thrown ((Nat × UInt64) × FeeCache)
  | [], used, sum, c => .ok ((used, sum), c)
  | bent :: rest, used, sum, c =>
    if bent.timestamp < endTimestamp - 86400 then .ok ((used, sum), c)
    else do
      let (fees, c) ← s.getBlockFeesCached bent c
      s.feesOfPastDayCached endTimestamp rest (used + 1) (sum + fees) c

def averagePastBlockFeesCached (s : Storage) (forBlockHeight : Nat) (c : FeeCache) :
    Except Thrown (UInt64 × FeeCache) :=
  if forBlockHeight = 0 then .ok (0, c)
  else
    match s.entries[forBlockHeight - 1]? with
    | none => .error .invalidForBlockHeight
    | some bent => do
      let ((used, sum), c) ←
        s.feesOfPastDayCached bent.timestamp (s.entries.take forBlockHeight).reverse 0 0 c
      .ok (if used = 0 then 0 else sum / UInt64.ofNat used, c)

section Known

variable {V W : Hash → Transaction → Prop} {s s' t : Storage}

/-- The fees of a stored block whose transactions satisfy `V` under their ids. -/
def FeesKnown (V : Hash → Transaction → Prop) (s : Storage) (id : Hash) (fees : UInt64) : Prop :=
  ∃ b txs, s.blocksByHash id = some b ∧ List.Forall₂ V b.txHashes txs ∧
    fees = (txs.map fun tx => tx.getTxFee).sum

/-- The transactions of the main chain satisfy `V` under their ids. -/
def TxsAre (V : Hash → Transaction → Prop) (s : Storage) : Prop :=
  ∀ id e, s.ledger.transactions id = some e → V id e.tx

theorem FeesKnown.mono {id : Hash} {fees : UInt64} (h : FeesKnown V s id fees)
    (himp : ∀ id tx, V id tx → W id tx) (hgrow : BodiesGrow s s') : FeesKnown W s' id fees := by
  obtain ⟨b, txs, hb, htxs, hfees⟩ := h
  exact ⟨b, txs, hgrow id b hb, htxs.imp himp, hfees⟩

theorem sumTxFees_eq_ok (hV : TxsAre V s) {ids : List Hash} {sum r : UInt64}
    (h : s.sumTxFees ids sum = .ok r) :
    ∃ txs, List.Forall₂ V ids txs ∧ r = sum + (txs.map fun tx => tx.getTxFee).sum := by
  induction ids generalizing sum with
  | nil =>
    obtain rfl := Except.ok.inj h
    exact ⟨[], .nil, by simp⟩
  | cons id ids ih =>
    rw [sumTxFees] at h
    split at h
    · cases h
    · rename_i e he
      obtain ⟨txs, htxs, rfl⟩ := ih h
      refine ⟨e.tx :: txs, .cons (hV id e he) htxs, ?_⟩
      rw [List.map_cons, List.sum_cons, add_assoc]

theorem feesKnown_of_getBlockFees (hV : TxsAre V t) (hgrow : BodiesGrow t s)
    {bent : BlockchainEntry} {fees : UInt64} (h : t.getBlockFees bent = .ok fees) :
    FeesKnown V s bent.hash fees := by
  obtain ⟨b, hb, hsum⟩ := bind_eq_ok_iff.mp h
  obtain ⟨txs, htxs, hfees⟩ := sumTxFees_eq_ok hV hsum
  exact ⟨b, txs, hgrow _ _ (getBlockByHash_eq_ok hb), htxs, by rw [hfees, zero_add]⟩

theorem FeesKnown.unique (hV : Relator.RightUnique V) {id : Hash} {fees fees' : UInt64}
    (h : FeesKnown V s id fees) (h' : FeesKnown V s id fees') : fees = fees' := by
  obtain ⟨b, txs, hb, htxs, rfl⟩ := h
  obtain ⟨b', txs', hb', htxs', rfl⟩ := h'
  obtain rfl : b = b' := Option.some.inj (hb.symm.trans hb')
  rw [hV.forall₂ htxs htxs']

variable {c c' : FeeCache}

theorem getBlockFeesCached_known (hV : TxsAre V t) (hgrow : BodiesGrow t s)
    (hc : c.All (FeesKnown V s)) {bent : BlockchainEntry} {fees : UInt64}
    (h : t.getBlockFeesCached bent c = .ok (fees, c')) :
    FeesKnown V s bent.hash fees ∧ c'.All (FeesKnown V s) := by
  unfold getBlockFeesCached at h
  split at h
  · rename_i r hget
    obtain rfl := Except.ok.inj h
    exact hc.get? hget
  · obtain ⟨fees', hfees, hput⟩ := bind_eq_ok_iff.mp h
    obtain ⟨rfl, rfl⟩ := Prod.mk.inj (Except.ok.inj hput)
    have hknown := feesKnown_of_getBlockFees hV hgrow hfees
    exact ⟨hknown, hc.put hknown⟩

theorem feesOfPastDayCached_known (hV : TxsAre V t) (hgrow : BodiesGrow t s)
    {endTimestamp : UInt64} {bents : List BlockchainEntry} {used : Nat} {sum : UInt64}
    {r : Nat × UInt64} (hc : c.All (FeesKnown V s))
    (h : t.feesOfPastDayCached endTimestamp bents used sum c = .ok (r, c')) :
    c'.All (FeesKnown V s) := by
  induction bents generalizing used sum c with
  | nil =>
    obtain ⟨-, rfl⟩ := Prod.mk.inj (Except.ok.inj h)
    exact hc
  | cons bent bents ih =>
    rw [feesOfPastDayCached] at h
    split_ifs at h
    · obtain ⟨-, rfl⟩ := Prod.mk.inj (Except.ok.inj h)
      exact hc
    · obtain ⟨⟨fees, c₁⟩, hfees, hrest⟩ := bind_eq_ok_iff.mp h
      exact ih (getBlockFeesCached_known hV hgrow hc hfees).2 hrest

theorem averagePastBlockFeesCached_known (hV : TxsAre V t) (hgrow : BodiesGrow t s)
    (hc : c.All (FeesKnown V s)) {height : Nat} {v : UInt64}
    (h : t.averagePastBlockFeesCached height c = .ok (v, c')) : c'.All (FeesKnown V s) := by
  unfold averagePastBlockFeesCached at h
  split_ifs at h
  · obtain ⟨-, rfl⟩ := Prod.mk.inj (Except.ok.inj h)
    exact hc
  split at h
  · cases h
  · obtain ⟨⟨⟨used, sum⟩, c₁⟩, hfees, hrest⟩ := bind_eq_ok_iff.mp h
    obtain ⟨-, rfl⟩ := Prod.mk.inj (Except.ok.inj hrest)
    exact feesOfPastDayCached_known hV hgrow hc hfees

section Answer

variable (hV : TxsAre V s) (hunique : Relator.RightUnique V)
include hV hunique

theorem getBlockFeesCached_eq (hc : c.All (FeesKnown V s)) {bent : BlockchainEntry} {fees : UInt64}
    (h : s.getBlockFees bent = .ok fees) :
    ∃ c', s.getBlockFeesCached bent c = .ok (fees, c') := by
  unfold getBlockFeesCached
  split
  · rename_i r hget
    obtain ⟨fees', c'⟩ := r
    have hknown := (hc.get? hget).1
    obtain rfl := hknown.unique hunique (feesKnown_of_getBlockFees hV (.refl s) h)
    exact ⟨c', rfl⟩
  · exact ⟨c.put bent.hash fees, bind_eq_ok_iff.mpr ⟨fees, h, rfl⟩⟩

theorem feesOfPastDayCached_eq {endTimestamp : UInt64} {bents : List BlockchainEntry} {used : Nat}
    {sum : UInt64} {r : Nat × UInt64} (hc : c.All (FeesKnown V s))
    (h : s.feesOfPastDay endTimestamp bents used sum = .ok r) :
    ∃ c', s.feesOfPastDayCached endTimestamp bents used sum c = .ok (r, c') := by
  induction bents generalizing used sum c with
  | nil =>
    obtain rfl := Except.ok.inj h
    exact ⟨c, rfl⟩
  | cons bent bents ih =>
    rw [feesOfPastDay] at h
    rw [feesOfPastDayCached]
    split_ifs at h ⊢
    · obtain rfl := Except.ok.inj h
      exact ⟨c, rfl⟩
    · obtain ⟨fees, hfees, hrest⟩ := bind_eq_ok_iff.mp h
      obtain ⟨c₁, hask⟩ := getBlockFeesCached_eq hV hunique hc hfees
      obtain ⟨c₂, hall⟩ := ih (getBlockFeesCached_known hV (.refl s) hc hask).2 hrest
      exact ⟨c₂, bind_eq_ok_iff.mpr ⟨_, hask, hall⟩⟩

theorem averagePastBlockFeesCached_eq (hc : c.All (FeesKnown V s)) {height : Nat} {v : UInt64}
    (h : s.averagePastBlockFees height = .ok v) :
    ∃ c', s.averagePastBlockFeesCached height c = .ok (v, c') := by
  unfold averagePastBlockFees at h
  unfold averagePastBlockFeesCached
  split_ifs at h ⊢
  · obtain rfl := Except.ok.inj h
    exact ⟨c, rfl⟩
  cases hbent : s.entries[height - 1]? with
  | none =>
    rw [hbent] at h
    cases h
  | some bent =>
    rw [hbent] at h
    obtain ⟨r, hfees, hrest⟩ := bind_eq_ok_iff.mp h
    obtain rfl := Except.ok.inj hrest
    obtain ⟨c', hall⟩ := feesOfPastDayCached_eq hV hunique hc hfees
    exact ⟨c', bind_eq_ok_iff.mpr ⟨_, hall, rfl⟩⟩

end Answer

end Known

section Runs

variable (env : Env) (genesis : Block)

/-- A state in the midst of an operation that ends in `s`: its bodies are stored when the
operation ends, and its transactions have come in with the run. -/
structure Passing (ops : List (UInt64 × Op)) (s t : Storage) : Prop where
  bodies : BodiesGrow t s
  txs : t.TxsAre fun id tx => (id, tx) ∈ identified env.crypto genesis ops

/-- A run in which averages are asked for at any time, within the operations and between
them. -/
inductive CachedRun : List (UInt64 × Op) → Storage → FeeCache → Prop
  | start {s : Storage} (h : s.ReachedBy env genesis []) : CachedRun [] s (.clear _)
  | step {ops : List (UInt64 × Op)} {s s' : Storage} {c : FeeCache} {now : UInt64} {op : Op}
      (h : CachedRun ops s c) (hcalm : ∀ e, s.call env now op = .error e → e.storage = s)
      (hstep : s.step env now op = .ok s') : CachedRun (ops ++ [(now, op)]) s' c
  | asked {ops : List (UInt64 × Op)} {s t : Storage} {c c' : FeeCache} {height : Nat} {v : UInt64}
      (h : CachedRun ops s c) (hpassing : Passing env genesis ops s t)
      (hask : t.averagePastBlockFeesCached height c = .ok (v, c')) : CachedRun ops s c'
  | cleared {ops : List (UInt64 × Op)} {s : Storage} {c : FeeCache} (h : CachedRun ops s c) :
      CachedRun ops s (.clear _)

end Runs

variable {env : Env} {genesis : Block} {ops : List (UInt64 × Op)} {s t : Storage} {c : FeeCache}

theorem ReachedBy.txsAre (h : s.ReachedBy env genesis ops) :
    s.TxsAre fun id tx => (id, tx) ∈ identified env.crypto genesis ops :=
  h.carried.allTxs.chain

/-- The earlier states of a run are such states, also those before a reorganization. -/
theorem passing_of_run {later : List (UInt64 × Op)} (h : t.ReachedBy env genesis ops)
    (hcalm : t.Uninterrupted env later) (hrun : t.run env later = .ok s) :
    Passing env genesis (ops ++ later) s t where
  bodies := run_bodiesGrow h.reachable.sound hcalm hrun
  txs id e he := identified_append.mpr (Or.inl (h.txsAre id e he))

theorem uninterrupted_singleton {now : UInt64} {op : Op}
    (hcalm : ∀ e, s.call env now op = .error e → e.storage = s) :
    s.Uninterrupted env [(now, op)] :=
  ⟨hcalm, fun _ _ => trivial⟩

theorem run_singleton {now : UInt64} {op : Op} {s' : Storage} (h : s.step env now op = .ok s') :
    s.run env [(now, op)] = .ok s' :=
  bind_eq_ok_iff.mpr ⟨s', h, rfl⟩

theorem CachedRun.reachedBy (h : CachedRun env genesis ops s c) : s.ReachedBy env genesis ops := by
  induction h with
  | start h => exact h
  | step h hcalm hstep ih =>
    exact ih.append (uninterrupted_singleton hcalm) (run_singleton hstep)
  | asked h hpassing hask ih => exact ih
  | cleared h ih => exact ih

theorem CachedRun.run {later : List (UInt64 × Op)} (h : CachedRun env genesis ops s c)
    (hcalm : s.Uninterrupted env later) (hrun : s.run env later = .ok t) :
    CachedRun env genesis (ops ++ later) t c := by
  induction later generalizing ops s with
  | nil =>
    obtain rfl := Except.ok.inj hrun
    rw [List.append_nil]
    exact h
  | cons op later ih =>
    obtain ⟨u, hstep, hrun⟩ := bind_eq_ok_iff.mp hrun
    have hlater := ih (h.step hcalm.1 hstep) (hcalm.2 u hstep) hrun
    rw [List.append_assoc] at hlater
    exact hlater

theorem ReachedBy.cachedRun (h : s.ReachedBy env genesis ops) :
    CachedRun env genesis ops s (.clear _) := by
  obtain ⟨now, id, s₀, hid, hadd, hcalm, hrun⟩ := h
  exact (CachedRun.start ⟨now, id, s₀, hid, hadd, trivial, rfl⟩).run hcalm hrun

theorem CachedRun.known (h : CachedRun env genesis ops s c) :
    c.All (FeesKnown (fun id tx => (id, tx) ∈ identified env.crypto genesis ops) s) := by
  induction h with
  | start h => exact LruCache.all_clear _
  | step h hcalm hstep ih =>
    refine ih.mono fun id fees hknown => hknown.mono ?_ ?_
    · exact fun id tx hmem => identified_append.mpr (Or.inl hmem)
    · exact run_bodiesGrow h.reachedBy.reachable.sound (uninterrupted_singleton hcalm)
        (run_singleton hstep)
  | asked h hpassing hask ih =>
    exact averagePastBlockFeesCached_known hpassing.txs hpassing.bodies ih hask
  | cleared h ih => exact LruCache.all_clear _

end Storage

end Pebblecoin
