import Pebblecoin.Containers.InvertedIndex
import Pebblecoin.RunRecords

/-!
The table of the key images that the transactions of the pool spend, over any
sequence of received and taken transactions.
-/

namespace Pebblecoin

open Containers Control Wire

variable {tx : Transaction} {inp : TxIn} {vin : List TxIn} {kept : Bool} {k : KeyImage}
  {s : Storage} {call : PoolCall} {r : Bool × Storage} {calls : List PoolCall}

/-- The key image that an input is looked up by in the pool. -/
def TxIn.spentKeyImage? : TxIn → Option KeyImage
  | .toKey inp => some inp.kImage
  | _ => none

namespace TxMemoryPool

def Spends (pool : TxMemoryPool) (id : Hash) (k : KeyImage) : Prop :=
  ∃ d, pool.transactions id = some d ∧ ∃ inp ∈ d.tx.vin, inp.spentKeyImage? = some k

/-- Spent by a transaction that was added without `keptByBlock`. -/
def SpendsFirst (pool : TxMemoryPool) (id : Hash) (k : KeyImage) : Prop :=
  ∃ d, pool.transactions id = some d ∧ d.keptByBlock = false ∧
    ∃ inp ∈ d.tx.vin, inp.spentKeyImage? = some k

/-- The table lists for each key image exactly the transactions that spend it, and at
most one of them was added without `keptByBlock`. -/
structure Indexed (pool : TxMemoryPool) : Prop where
  index : Indexes pool.txinInfos pool.Spends
  single : ∀ k id id', pool.SpendsFirst id k → pool.SpendsFirst id' k → id = id'

/-- The inputs of a transaction that has passed the checks of its own: they are all
of the supported kinds and spend different key images. -/
structure Indexable (vin : List TxIn) : Prop where
  infos : ∀ inp ∈ vin, getTxinInfo inp = inp.spentKeyImage?.elim .noConflict .keyImage
  distinct : vin.Pairwise fun a b => ∀ k, a.spentKeyImage? = some k → b.spentKeyImage? ≠ some k

theorem Indexable.of_semantic (h : tx.Semantic) : Indexable tx.vin := by
  refine ⟨fun inp hinp => ?_, h.disjoint.imp fun {a b} hdisjoint k ha hb => ?_⟩
  · have hsupported := List.all_eq_true.mp h.inputs inp hinp
    cases inp with
    | toKey _ | registerDelegate _ | vote _ => rfl
    | _ => cases hsupported
  · have hkey : ∀ inp : TxIn, inp.spentKeyImage? = some k → inp.keyImage? = some k := by
      intro inp hinp
      cases inp with
      | toKey inp => exact hinp
      | _ => cases hinp
    exact hdisjoint.compatible k (hkey a ha) (hkey b hb)

theorem Indexable.apart {before after : List TxIn} (h : Indexable (before ++ inp :: after))
    (hk : inp.spentKeyImage? = some k) : ¬ ∃ b ∈ before, b.spentKeyImage? = some k := by
  rintro ⟨b, hb, hbk⟩
  exact (List.pairwise_append.mp h.distinct).2.2 b hb inp (by simp) k hbk hk

theorem addInp_of_spent {id : Hash} {pool : TxMemoryPool} (hinfo : getTxinInfo inp = .keyImage k)
    (hnew : id ∉ (pool.txinInfos k).getD ∅) (hfree : kept = true ∨ (pool.txinInfos k).getD ∅ = ∅) :
    addInp id kept inp pool =
      (true, { pool with txinInfos := InvertedIndex.insertKey id k pool.txinInfos }) := by
  have hguard : (!kept && decide ((pool.txinInfos k).getD ∅ ≠ ∅)) = false := by
    rcases hfree with rfl | hempty
    · rfl
    · simp [hempty]
  simp only [addInp, hinfo, hguard, hnew, if_false, Bool.false_eq_true]
  rfl

theorem removeInp_of_spent {id : Hash} {pool : TxMemoryPool} (hinfo : getTxinInfo inp = .keyImage k)
    (hmem : id ∈ (pool.txinInfos k).getD ∅) :
    removeInp id inp pool =
      (true, { pool with txinInfos := InvertedIndex.eraseKey id k pool.txinInfos }) := by
  cases hk : pool.txinInfos k with
  | none => simp [hk] at hmem
  | some infoSet =>
    rw [hk, Option.getD_some] at hmem
    simp only [removeInp, hinfo, hk, hmem, if_true, InvertedIndex.eraseKey, Option.getD_some]

theorem allApply_addInp {id : Hash} {pool : TxMemoryPool} {keys : Hash → KeyImage → Prop}
    (hindex : Indexes pool.txinInfos keys) (hvin : Indexable vin)
    (hfree : ∀ inp ∈ vin, ∀ k, inp.spentKeyImage? = some k →
      ¬ keys id k ∧ (kept = true ∨ ∀ j, ¬ keys j k)) :
    ∃ pool', allApply (addInp id kept) vin pool = (true, pool') ∧
      ∃ infos, pool' = { pool with txinInfos := infos } ∧
        Indexes infos fun j l => keys j l ∨ j = id ∧ ∃ inp ∈ vin, inp.spentKeyImage? = some l := by
  apply allApply_progress
  case hs => exact ⟨pool.txinInfos, rfl, hindex.congr fun j l => by simp⟩
  rintro before inp after _ rfl ⟨infos, rfl, hinfos⟩
  have hinfo := hvin.infos inp (by simp)
  cases hspent : inp.spentKeyImage? with
  | none =>
    rw [hspent] at hinfo
    refine ⟨_, by simp only [addInp, hinfo, Option.elim_none], infos, rfl, ?_⟩
    simpa [or_and_right, exists_or, hspent] using hinfos
  | some k =>
    rw [hspent] at hinfo
    obtain ⟨hnew, hothers⟩ := hfree inp (by simp) k hspent
    -- the inputs before it have not touched its key image
    have hapart := hvin.apart hspent
    have hempty : (∀ j, ¬ keys j k) → (infos k).getD ∅ = ∅ := by
      intro hnone
      rw [hinfos.eq_none_iff.mpr fun j hj => hj.elim (hnone j) fun h => hapart h.2, Option.getD_none]
    refine ⟨_, addInp_of_spent hinfo (fun hmem => ?_) (hothers.imp_right hempty), _, rfl,
      (hinfos.insertKey id k).congr fun j l => ?_⟩
    · exact ((hinfos.exact k id).mp hmem).elim hnew fun h => hapart h.2
    · simp [or_and_right, exists_or, hspent, and_or_left, or_assoc, eq_comm (a := k)]

theorem allApply_removeInp {id : Hash} {pool : TxMemoryPool} {keys : Hash → KeyImage → Prop}
    (hindex : Indexes pool.txinInfos keys) (hvin : Indexable vin)
    (hkeys : ∀ inp ∈ vin, ∀ k, inp.spentKeyImage? = some k → keys id k) :
    ∃ pool', allApply (removeInp id) vin pool = (true, pool') ∧
      ∃ infos, pool' = { pool with txinInfos := infos } ∧ Indexes infos fun j l => keys j l ∧
        ¬ (j = id ∧ ∃ inp ∈ vin, inp.spentKeyImage? = some l) := by
  apply allApply_progress
  case hs => exact ⟨pool.txinInfos, rfl, hindex.congr fun j l => by simp⟩
  rintro before inp after _ rfl ⟨infos, rfl, hinfos⟩
  have hinfo := hvin.infos inp (by simp)
  cases hspent : inp.spentKeyImage? with
  | none =>
    rw [hspent] at hinfo
    refine ⟨_, by simp only [removeInp, hinfo, Option.elim_none], infos, rfl, ?_⟩
    simpa [or_and_right, exists_or, hspent] using hinfos
  | some k =>
    rw [hspent] at hinfo
    have hmem := (hinfos.exact k id).mpr
      ⟨hkeys inp (by simp) k hspent, fun h => hvin.apart hspent h.2⟩
    refine ⟨_, removeInp_of_spent hinfo hmem, _, rfl, (hinfos.eraseKey id k).congr fun j l => ?_⟩
    simp [or_and_right, exists_or, hspent, and_or_left, and_assoc, eq_comm (a := k)]

/-- The infos of the transaction are found under its hash, or it has none. -/
def Retrievable (crypto : Crypto) (id : Hash) (tx : Transaction) : Prop :=
  (getTransactionHash crypto tx).getD nullHash = id ∨ ∀ inp ∈ tx.vin, inp.spentKeyImage? = none

theorem mem_removeInp {id id' : Hash} (hne : id ≠ id') (inp : TxIn) {pool : TxMemoryPool}
    (h : id ∈ (pool.txinInfos k).getD ∅) :
    id ∈ ((removeInp id' inp pool).2.txinInfos k).getD ∅ := by
  unfold removeInp
  split
  · exact h
  · exact h
  · rename_i l hl
    split
    · exact h
    · rename_i infoSet hset
      dsimp only
      split
      · have hkept := (InvertedIndex.mem_eraseKey (i := id') (k := l)).mpr
          ⟨h, fun hcases => hne hcases.1⟩
        simpa only [InvertedIndex.eraseKey, hset, Option.getD_some] using hkept
      · exact h

section Take

variable {crypto : Crypto} {id : Hash} {d : TxDetails} {pool pool' : TxMemoryPool}

theorem takeTx_spends (htake : pool.takeTx crypto id = some (d, pool')) (j : Hash) (k : KeyImage) :
    pool'.Spends j k ↔ j ≠ id ∧ pool.Spends j k := by
  rw [Spends, (takeTx_eq_some htake).2, Function.update_apply]
  by_cases hj : j = id
  · simp [hj]
  · simp [hj, Spends]

theorem takeTx_spendsFirst (htake : pool.takeTx crypto id = some (d, pool')) {j : Hash}
    (h : pool'.SpendsFirst j k) : pool.SpendsFirst j k := by
  obtain ⟨e, he, hrest⟩ := h
  rw [(takeTx_eq_some htake).2, Function.update_apply] at he
  split at he
  · cases he
  · exact ⟨e, he, hrest⟩

theorem takeTx_txinInfos (htake : pool.takeTx crypto id = some (d, pool')) :
    pool'.txinInfos = (pool.removeTransactionData crypto d.tx).2.txinInfos := by
  obtain ⟨d', hd', heq⟩ := Option.map_eq_some_iff.mp htake
  obtain ⟨rfl, rfl⟩ := Prod.mk.inj heq
  rfl

theorem Indexed.takeTx_iff (h : pool.Indexed) (hsemantic : d.tx.Semantic)
    (htake : pool.takeTx crypto id = some (d, pool')) :
    pool'.Indexed ↔ Retrievable crypto id d.tx := by
  have hd := (takeTx_eq_some htake).1
  have hspends : ∀ k, pool.Spends id k ↔ ∃ inp ∈ d.tx.vin, inp.spentKeyImage? = some k := by
    intro k
    simp [Spends, hd]
  constructor
  · intro hpool'
    by_contra hlost
    simp only [Retrievable, not_or, not_forall] at hlost
    obtain ⟨hhash, inp, hinp, hspent⟩ := hlost
    obtain ⟨k, hk⟩ := Option.ne_none_iff_exists'.mp hspent
    -- the infos stay under the id they were entered with
    have hstale : id ∈ (pool'.txinInfos k).getD ∅ := by
      rw [takeTx_txinInfos htake]
      exact allApply_keeps (P := fun p : TxMemoryPool => id ∈ (p.txinInfos k).getD ∅)
        (fun inp _ p hp => mem_removeInp (Ne.symm hhash) inp hp)
        ((h.index.exact k id).mpr ((hspends k).mpr ⟨inp, hinp, hk⟩))
    exact ((takeTx_spends htake id k).mp ((hpool'.index.exact k id).mp hstale)).1 rfl
  · intro hretrievable
    set hash := (getTransactionHash crypto d.tx).getD nullHash with hhash
    have hkeys : ∀ inp ∈ d.tx.vin, ∀ k, inp.spentKeyImage? = some k → pool.Spends hash k := by
      intro inp hinp k hk
      rcases hretrievable with hid | hnone
      · rw [hhash, hid]
        exact (hspends k).mpr ⟨inp, hinp, hk⟩
      · cases (hnone inp hinp).symm.trans hk
    obtain ⟨_, hrun, infos, rfl, hinfos⟩ :=
      allApply_removeInp h.index (Indexable.of_semantic hsemantic) hkeys
    refine ⟨?_, fun k i j hi hj =>
      h.single k i j (takeTx_spendsFirst htake hi) (takeTx_spendsFirst htake hj)⟩
    rw [takeTx_txinInfos htake, removeTransactionData, ← hhash, hrun]
    refine hinfos.congr fun j k => ?_
    rw [takeTx_spends htake, and_comm, and_congr_right_iff]
    intro hj
    rcases hretrievable with hid | hnone
    · rw [← hhash] at hid
      subst hid
      refine not_congr ⟨fun hjid => ⟨hjid, ?_⟩, And.left⟩
      subst hjid
      exact (hspends k).mp hj
    · refine ⟨fun _ hcases => ?_, fun _ hjid => ?_⟩
      · obtain ⟨-, inp, hinp, hk⟩ := hcases
        cases (hnone inp hinp).symm.trans hk
      · subst hjid
        obtain ⟨inp, hinp, hk⟩ := (hspends k).mp hj
        cases (hnone inp hinp).symm.trans hk

end Take

end TxMemoryPool

namespace Storage

variable {env : Env} {now : UInt64}

/-- Every transaction of the pool satisfies `V` under its id. -/
def PoolAll (V : Hash → Transaction → Prop) (s : Storage) : Prop :=
  ∀ id d, s.pool.transactions id = some d → V id d.tx

/-- Every transaction of the pool has passed the checks of its own. -/
abbrev PoolSemantic (s : Storage) : Prop := s.PoolAll fun _ tx => tx.Semantic

theorem insertIntoPool_indexed {id : Hash} (blobSize : Nat) (fee : UInt64) (memory : CheckMemory)
    (h : s.pool.Indexed) (hsemantic : tx.Semantic) (hnew : s.pool.transactions id = none)
    (hfree : kept = true ∨ ∀ inp ∈ tx.vin, ∀ k, inp.spentKeyImage? = some k →
      ∀ j, ¬ s.pool.Spends j k) :
    (insertIntoPool tx id blobSize fee kept memory s).1 = true ∧
      (insertIntoPool tx id blobSize fee kept memory s).2.pool.Indexed := by
  have hold : ∀ {j k}, s.pool.Spends j k → j ≠ id := by
    rintro j k ⟨d, hd, -⟩ rfl
    cases hnew.symm.trans hd
  set pool : TxMemoryPool := { s.pool with
    transactions := Function.update s.pool.transactions id (some ⟨tx, blobSize, fee, kept⟩)
    memory := Function.update s.pool.memory id memory } with hpool
  have hindex : Indexes pool.txinInfos s.pool.Spends := h.index
  obtain ⟨_, hrun, infos, rfl, hinfos⟩ := TxMemoryPool.allApply_addInp hindex
    (TxMemoryPool.Indexable.of_semantic hsemantic)
    fun inp hinp k hk => ⟨fun hid => hold hid rfl, hfree.imp_right fun hnone => hnone inp hinp k hk⟩
  have hinsert : insertIntoPool tx id blobSize fee kept memory s =
      (true, { s with pool := { pool with txinInfos := infos } }) := by
    simp only [insertIntoPool, ← hpool, hrun]
  rw [hinsert]
  have htransactions : ∀ j d, pool.transactions j = some d ↔
      j ≠ id ∧ s.pool.transactions j = some d ∨ j = id ∧ d = ⟨tx, blobSize, fee, kept⟩ := by
    intro j d
    have happly : pool.transactions j =
        if j = id then some ⟨tx, blobSize, fee, kept⟩ else s.pool.transactions j :=
      Function.update_apply ..
    rw [happly]
    by_cases hj : j = id
    · simp [hj, eq_comm]
    · simp [hj]
  refine ⟨rfl, hinfos.congr fun j k => ?_, fun k i j hi hj => ?_⟩
  · constructor
    · rintro ⟨d, hd, hspent⟩
      rcases (htransactions j d).mp hd with ⟨-, hj⟩ | ⟨rfl, rfl⟩
      · exact Or.inl ⟨d, hj, hspent⟩
      · exact Or.inr ⟨rfl, hspent⟩
    · rintro (⟨d, hd, hspent⟩ | ⟨rfl, hspent⟩)
      · exact ⟨d, (htransactions j d).mpr (Or.inl ⟨hold ⟨d, hd, hspent⟩, hd⟩), hspent⟩
      · exact ⟨_, (htransactions j _).mpr (Or.inr ⟨rfl, rfl⟩), hspent⟩
  · -- a transaction that is not kept meets no other that spends one of its images
    have hclash : ∀ {j d}, s.pool.transactions j = some d → kept = false →
        (∃ inp ∈ tx.vin, inp.spentKeyImage? = some k) →
        (∃ inp ∈ d.tx.vin, inp.spentKeyImage? = some k) → False := by
      rintro j d hd hkept ⟨inp, hinp, hk⟩ hspent
      rcases hfree with hkept' | hnone
      · cases hkept.symm.trans hkept'
      · exact hnone inp hinp k hk j ⟨d, hd, hspent⟩
    obtain ⟨d, hd, hdkept, hdspent⟩ := hi
    obtain ⟨e, he, hekept, hespent⟩ := hj
    rcases (htransactions i d).mp hd with ⟨-, hd'⟩ | ⟨rfl, rfl⟩
    · rcases (htransactions j e).mp he with ⟨-, he'⟩ | ⟨rfl, rfl⟩
      · exact h.single k i j ⟨d, hd', hdkept, hdspent⟩ ⟨e, he', hekept, hespent⟩
      · exact (hclash hd' hekept hespent hdspent).elim
    · rcases (htransactions j e).mp he with ⟨-, he'⟩ | ⟨rfl, rfl⟩
      · exact (hclash he' hdkept hdspent hespent).elim
      · rfl

/-- What a call leaves of the pool: an exact table, and if it failed everything. -/
def PoolOutcome (s : Storage) (succeeded : Bool) (s' : Storage) : Prop :=
  s'.pool.Indexed ∧ (succeeded = false → s'.pool = s.pool)

theorem PoolOutcome.refl (h : s.pool.Indexed) (succeeded : Bool) : s.PoolOutcome succeeded s :=
  ⟨h, fun _ => rfl⟩

theorem poolAddTx_indexed (hsemantic : tx.Semantic) (id : Hash) (blobSize : Nat) (kept : Bool)
    (h : s.pool.Indexed) :
    Returns (s.poolAddTx env now tx id blobSize kept) fun r => s.PoolOutcome r.1 r.2.2 := by
  unfold poolAddTx
  split
  · exact Returns.ok_iff.mpr (.refl h _)
  split
  · exact Returns.ok_iff.mpr (.refl h _)
  rename_i fee hfee
  split
  · exact Returns.ok_iff.mpr (.refl h _)
  split
  · exact Returns.ok_iff.mpr (.refl h _)
  rename_i hconflict
  refine Returns.bind_const fun valid => ?_
  split
  · exact Returns.ok_iff.mpr (.refl h _)
  split
  · exact Returns.ok_iff.mpr (.refl h _)
  rename_i hhave
  have hnew : s.pool.transactions id = none := by simpa [TxMemoryPool.haveTx] using hhave
  have hfree : kept = true ∨ ∀ inp ∈ tx.vin, ∀ k, inp.spentKeyImage? = some k →
      ∀ j, ¬ s.pool.Spends j k := by
    cases kept with
    | true => exact Or.inl rfl
    | false =>
      refine Or.inr fun inp hinp k hk => h.index.eq_none_iff.mp ?_
      have hcan : tx.vin.all s.pool.checkCanAddInp = true := by
        simpa [TxMemoryPool.checkCanAddTx] using hconflict
      have hinp' := List.all_eq_true.mp hcan inp hinp
      have hinfo := (TxMemoryPool.Indexable.of_semantic hsemantic).infos inp hinp
      rw [hk] at hinfo
      simpa [TxMemoryPool.checkCanAddInp, hinfo] using hinp'
  obtain ⟨hadded, hindexed⟩ := insertIntoPool_indexed blobSize fee
    (s.entryMemory env now tx valid) h hsemantic hnew hfree
  refine Returns.ok_iff.mpr ⟨hindexed, fun hfalse => ?_⟩
  cases hadded.symm.trans hfalse

theorem handleIncomingTx_indexed (blob : Bytes) (kept : Bool) (h : s.pool.Indexed) :
    Returns (s.handleIncomingTx env now blob kept) fun r => s.PoolOutcome r.1 r.2.2 := by
  unfold handleIncomingTx
  split
  · exact Returns.ok_iff.mpr (.refl h _)
  split
  · exact Returns.ok_iff.mpr (.refl h _)
  rename_i tx txHash prefixHash hparse
  split
  · exact Returns.ok_iff.mpr (.refl h _)
  rename_i hcheck
  split
  · exact Returns.ok_iff.mpr (.refl h _)
  · exact poolAddTx_indexed (semantic_of_checkTxSemantic (by simpa using hcheck)) _ _ _ h

theorem handleIncomingTx_poolAll {V : Hash → Transaction → Prop} {blob : Bytes}
    (hblob : ∀ tx txHash prefixHash,
      parseAndValidateTxFromBlob env.crypto blob = some (tx, txHash, prefixHash) →
        s.checkTxSemantic env tx kept = true → V txHash tx) (h : s.PoolAll V) :
    Returns (s.handleIncomingTx env now blob kept) fun r => r.2.2.PoolAll V := by
  unfold handleIncomingTx
  split
  · exact Returns.ok_iff.mpr h
  split
  · exact Returns.ok_iff.mpr h
  rename_i tx txHash prefixHash hparse
  split
  · exact Returns.ok_iff.mpr h
  rename_i hcheck
  split
  · exact Returns.ok_iff.mpr h
  refine ⟨fun r hr id d hd => ?_⟩
  rcases (poolAddTx_transactions ..).out r hr with hsame | ⟨fee, -, hadded⟩
  · exact h id d (hsame ▸ hd)
  · rw [hadded, Function.update_apply] at hd
    split at hd
    · rename_i hid
      obtain rfl := Option.some.inj hd
      rw [hid]
      exact hblob tx txHash prefixHash hparse (by simpa using hcheck)
    · exact h id d hd

end Storage

inductive PoolCall where
  | handleIncomingTx (now : UInt64) (blob : Bytes) (keptByBlock : Bool)
  | takeTx (id : Hash)

namespace PoolCall

def apply (env : Env) : PoolCall → Storage → Except Interrupted (Bool × Storage)
  | .handleIncomingTx now blob keptByBlock, s => do
    let (succeeded, _, s') ← s.handleIncomingTx env now blob keptByBlock
    .ok (succeeded, s')
  | .takeTx id, s =>
    match s.pool.takeTx env.crypto id with
    | none => .ok (false, s)
    | some (_, pool) => .ok (true, { s with pool := pool })

/-- A taken transaction has its own hash as its id, or spends no key image. -/
def Retrieves (env : Env) : PoolCall → Storage → Prop
  | .handleIncomingTx .., _ => True
  | .takeTx id, s => ∀ d, s.pool.transactions id = some d →
      TxMemoryPool.Retrievable env.crypto id d.tx

/-- The table of key images is exact in every state of the run, and a call that
fails leaves the pool as it was. -/
def IndexedRun (env : Env) : List PoolCall → Storage → Prop
  | [], s => s.pool.Indexed
  | call :: calls, s => s.pool.Indexed ∧ ∀ r, call.apply env s = .ok r →
      (r.1 = false → r.2.pool = s.pool) ∧ IndexedRun env calls r.2

def RetrievesRun (env : Env) : List PoolCall → Storage → Prop
  | [], _ => True
  | call :: calls, s => call.Retrieves env s ∧ ∀ r, call.apply env s = .ok r →
      RetrievesRun env calls r.2

variable {env : Env}

/-- The received transaction satisfies `V` under the hash of its bytes, if it passes
the checks of its own. -/
def Brings (env : Env) (V : Hash → Transaction → Prop) : PoolCall → Prop
  | .handleIncomingTx _ blob _ => ∀ tx txHash prefixHash,
      parseAndValidateTxFromBlob env.crypto blob = some (tx, txHash, prefixHash) →
        tx.Semantic → V txHash tx
  | .takeTx _ => True

theorem apply_poolAll {V : Hash → Transaction → Prop} (hcall : call.Brings env V) (h : s.PoolAll V)
    (hr : call.apply env s = .ok r) : r.2.PoolAll V := by
  cases call with
  | handleIncomingTx now blob kept =>
    obtain ⟨⟨succeeded, tvc, s'⟩, hs', hr⟩ := bind_eq_ok_iff.mp hr
    obtain rfl := Except.ok.inj hr
    exact (Storage.handleIncomingTx_poolAll (fun tx txHash prefixHash hparse hcheck =>
      hcall tx txHash prefixHash hparse (Storage.semantic_of_checkTxSemantic hcheck)) h).out _ hs'
  | takeTx id =>
    simp only [apply] at hr
    split at hr
    · obtain rfl := Except.ok.inj hr
      exact h
    · rename_i d pool htake
      obtain rfl := Except.ok.inj hr
      intro j e he
      rw [(TxMemoryPool.takeTx_eq_some htake).2, Function.update_apply] at he
      split at he
      · cases he
      · exact h j e he

theorem apply_poolSemantic (h : s.PoolSemantic) (hr : call.apply env s = .ok r) :
    r.2.PoolSemantic := by
  refine apply_poolAll ?_ h hr
  cases call with
  | handleIncomingTx now blob kept => exact fun _ _ _ _ hsemantic => hsemantic
  | takeTx id => trivial

theorem apply_indexed_iff (hsemantic : s.PoolSemantic) (h : s.pool.Indexed)
    (hr : call.apply env s = .ok r) :
    (r.1 = false → r.2.pool = s.pool) ∧ (r.2.pool.Indexed ↔ call.Retrieves env s) := by
  cases call with
  | handleIncomingTx now blob kept =>
    obtain ⟨⟨succeeded, tvc, s'⟩, hs', hr⟩ := bind_eq_ok_iff.mp hr
    obtain rfl := Except.ok.inj hr
    obtain ⟨hindexed, hfailed⟩ := (Storage.handleIncomingTx_indexed blob kept h).out _ hs'
    exact ⟨hfailed, iff_of_true hindexed trivial⟩
  | takeTx id =>
    simp only [apply] at hr
    split at hr
    · rename_i hnone
      obtain rfl := Except.ok.inj hr
      refine ⟨fun _ => rfl, iff_of_true h fun d hd => ?_⟩
      simp [TxMemoryPool.takeTx, hd] at hnone
    · rename_i d pool htake
      obtain rfl := Except.ok.inj hr
      have hd := (TxMemoryPool.takeTx_eq_some htake).1
      refine ⟨fun hfalse => (Bool.noConfusion hfalse), ?_⟩
      rw [h.takeTx_iff (hsemantic id d hd) htake]
      constructor
      · intro hretrievable e he
        obtain rfl : d = e := Option.some.inj (hd.symm.trans he)
        exact hretrievable
      · intro hretrieves
        exact hretrieves d hd

theorem apply_takeTx_eq_ok (env : Env) (id : Hash) (s : Storage) :
    ∃ r, (takeTx id).apply env s = .ok r := by
  simp only [apply]
  split
  · exact ⟨_, rfl⟩
  · exact ⟨_, rfl⟩

theorem IndexedRun.indexed (h : IndexedRun env calls s) : s.pool.Indexed := by
  cases calls with
  | nil => exact h
  | cons call calls => exact h.1

theorem IndexedRun.next {s' : Storage} {b : Bool} (h : IndexedRun env (call :: calls) s)
    (hcall : call.apply env s = .ok (b, s')) : IndexedRun env calls s' :=
  (h.2 _ hcall).2

theorem IndexedRun.kept_of_failed {s' : Storage} (h : IndexedRun env (call :: calls) s)
    (hcall : call.apply env s = .ok (false, s')) : s'.pool = s.pool :=
  (h.2 _ hcall).1 rfl

theorem indexedRun_iff_of_indexed (hsemantic : s.PoolSemantic) (h : s.pool.Indexed) :
    IndexedRun env calls s ↔ RetrievesRun env calls s := by
  induction calls generalizing s with
  | nil => exact iff_of_true h trivial
  | cons call calls ih =>
    rw [IndexedRun, RetrievesRun]
    constructor
    · rintro ⟨-, hrun⟩
      have hretrieves : call.Retrieves env s := by
        cases call with
        | handleIncomingTx now blob kept => trivial
        | takeTx id =>
          obtain ⟨r, hr⟩ := apply_takeTx_eq_ok env id s
          exact (apply_indexed_iff hsemantic h hr).2.mp (hrun r hr).2.indexed
      refine ⟨hretrieves, fun r hr => ?_⟩
      exact (ih (apply_poolSemantic hsemantic hr) (hrun r hr).2.indexed).mp (hrun r hr).2
    · rintro ⟨hretrieves, hrun⟩
      refine ⟨h, fun r hr => ?_⟩
      obtain ⟨hfailed, hiff⟩ := apply_indexed_iff hsemantic h hr
      exact ⟨hfailed, (ih (apply_poolSemantic hsemantic hr) (hiff.mpr hretrieves)).mpr
        (hrun r hr)⟩

theorem retrievesRun_of_canonical (h : Storage.CanonicalPool env s)
    (hcalls : ∀ call ∈ calls, ∀ now blob kept, call = .handleIncomingTx now blob kept →
      CanonicallyEncoded blob) : RetrievesRun env calls s := by
  induction calls generalizing s with
  | nil => trivial
  | cons call calls ih =>
    have hbrings : call.Brings env fun id tx => getTransactionHash env.crypto tx = some id := by
      cases call with
      | handleIncomingTx now blob kept =>
        intro tx txHash prefixHash hparse _
        exact getTransactionHash_of_canonicallyEncoded hparse
          (hcalls _ (by simp) now blob kept rfl)
      | takeTx id => trivial
    refine ⟨?_, fun r hr => ih (apply_poolAll hbrings h hr) fun c hc => hcalls c (by simp [hc])⟩
    cases call with
    | handleIncomingTx now blob kept => trivial
    | takeTx id =>
      intro d hd
      left
      rw [h id d hd, Option.getD_some]

/-- From an empty pool on, the table of key images stays exact and failed calls change
nothing exactly if every taken transaction is found under its id. -/
theorem indexedRun_iff (env : Env) (calls : List PoolCall) {s : Storage}
    (htransactions : ∀ id, s.pool.transactions id = none)
    (hinfos : ∀ k, s.pool.txinInfos k = none) :
    IndexedRun env calls s ↔ RetrievesRun env calls s := by
  have hspends : ∀ id k, ¬ s.pool.Spends id k := by
    rintro id k ⟨d, hd, -⟩
    cases (htransactions id).symm.trans hd
  refine indexedRun_iff_of_indexed (fun id d hd => ?_) ⟨⟨fun k id => ?_, fun k hk => ?_⟩, ?_⟩
  · cases (htransactions id).symm.trans hd
  · simp [hinfos k, hspends id k]
  · cases (hinfos k).symm.trans hk
  · rintro k id id' ⟨d, hd, -⟩ -
    cases (htransactions id).symm.trans hd

/-- Spends a key image; it is received with a superfluous byte in its version. -/
def samplePoolTx : Transaction :=
  Storage.sampleTx [.toKey (Storage.sampleInk 30000000 5)] [10000000]

def samplePoolBlob : Bytes := (serializeTransaction samplePoolTx).getD []

def samplePaddedBlob : Bytes := 0x82 :: 0 :: samplePoolBlob.tail

def samplePaddedId : Hash := sampleCrypto.cnFastHash samplePaddedBlob

def sampleCalls (blob : Bytes) : List PoolCall :=
  [.handleIncomingTx 1000 blob true, .takeTx (sampleCrypto.cnFastHash blob),
    .handleIncomingTx 1000 blob true]

def sampleReceived : Storage :=
  (resultD ((handleIncomingTx 1000 samplePaddedBlob true).apply Storage.sampleEnv
    Storage.sampleState₀) (false, Storage.sampleState₀)).2

def sampleTaken : Storage :=
  (resultD ((takeTx samplePaddedId).apply Storage.sampleEnv sampleReceived)
    (false, sampleReceived)).2

def sampleReceivedAgain : Except Interrupted (Bool × Storage) :=
  (handleIncomingTx 1000 samplePaddedBlob true).apply Storage.sampleEnv sampleTaken

def sampleRest : Storage := (resultD sampleReceivedAgain (false, sampleTaken)).2

theorem sampleState₀_pool : Storage.sampleState₀.pool = Storage.empty.pool :=
  rfl

theorem indexedRun_of_samplePoolBlob :
    (∀ id, Storage.sampleState₀.pool.transactions id = none) ∧
      (∀ k, Storage.sampleState₀.pool.txinInfos k = none) ∧
      IndexedRun Storage.sampleEnv (sampleCalls samplePoolBlob) Storage.sampleState₀ := by
  have htransactions : ∀ id, Storage.sampleState₀.pool.transactions id = none := by
    intro id
    rw [sampleState₀_pool]
    rfl
  have hinfos : ∀ k, Storage.sampleState₀.pool.txinInfos k = none := by
    intro k
    rw [sampleState₀_pool]
    rfl
  have hparse : parseTransaction samplePoolBlob = some samplePoolTx := by decide +kernel
  have hserialize : serializeTransaction samplePoolTx = some samplePoolBlob := by decide +kernel
  refine ⟨htransactions, hinfos,
    (indexedRun_iff Storage.sampleEnv (sampleCalls samplePoolBlob) htransactions hinfos).mpr
      (retrievesRun_of_canonical (fun id d hd => ?_) fun call hcall now blob kept heq => ?_)⟩
  · cases (htransactions id).symm.trans hd
  · subst heq
    obtain rfl : blob = samplePoolBlob := by
      simp only [sampleCalls, List.mem_cons, handleIncomingTx.injEq, reduceCtorEq,
        List.not_mem_nil, or_false, false_or] at hcall
      exact hcall.elim (fun h => h.2.1) fun h => h.2.1
    exact (serializeTransaction_parse_iff hparse).mp hserialize

/-- After the transaction was taken the table still lists it.  When it is received again
it is in the pool although the call has failed. -/
theorem stale_txinInfos_of_samplePaddedBlob :
    ∃ s₁ s₂ s₃ : Storage,
      (handleIncomingTx 1000 samplePaddedBlob true).apply Storage.sampleEnv Storage.sampleState₀ =
          .ok (true, s₁) ∧
        (takeTx samplePaddedId).apply Storage.sampleEnv s₁ = .ok (true, s₂) ∧
        s₂.pool.transactions samplePaddedId = none ∧
        samplePaddedId ∈ (s₂.pool.txinInfos (Blob.ofNat 32 5)).getD ∅ ∧
        (handleIncomingTx 1000 samplePaddedBlob true).apply Storage.sampleEnv s₂ =
          .ok (false, s₃) ∧
        (s₃.pool.transactions samplePaddedId).isSome = true ∧
        ¬ IndexedRun Storage.sampleEnv (sampleCalls samplePaddedBlob) Storage.sampleState₀ := by
  have h₁ : _ = Except.ok (true, sampleReceived) := eq_ok_of_resultD (by decide +kernel)
  have h₂ : _ = Except.ok (true, sampleTaken) := eq_ok_of_resultD (by decide +kernel)
  have h₃ : sampleReceivedAgain = .ok (false, sampleRest) :=
    eq_ok_of_fst (eq_ok_of_isOk (false, sampleTaken) (by decide +kernel)) (by decide +kernel)
  have hgone : sampleTaken.pool.transactions samplePaddedId = none := by decide +kernel
  have hinside : (sampleRest.pool.transactions samplePaddedId).isSome = true := by decide +kernel
  refine ⟨sampleReceived, sampleTaken, sampleRest, h₁, h₂, hgone, by decide +kernel, h₃, hinside,
    ?_⟩
  intro hrun
  have hsame : sampleRest.pool = sampleTaken.pool :=
    ((hrun.next h₁).next h₂).kept_of_failed h₃
  rw [hsame, hgone] at hinside
  cases hinside

end PoolCall

end Pebblecoin
