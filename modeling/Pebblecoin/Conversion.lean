import Pebblecoin.RunRecords
import Pebblecoin.Containers.KeyedStore
import Pebblecoin.Control.Enumerate

/-!
The conversion of the stores of version 15, which were kept in memory, to those of
version 16.  Every loop logs its progress in steps of a twentieth of its length, which is
zero for a short one.
-/

namespace Pebblecoin

open Containers Control

/-- What ends the program without an exception. -/
inductive Fault where
  | divisionByZero
deriving DecidableEq, Repr

structure BlockExtendedInfo where
  bl : Block
  height : Nat
  blockCumulativeSize : UInt64
  cumulativeDifficulty : UInt64
  alreadyGeneratedCoins : UInt64

/-- The data of version 15 that was loaded and has to be converted. -/
structure V15RamConverter where
  requiresConversion : Bool
  blocks : List BlockExtendedInfo
  blocksIndex : UnorderedMap Hash Nat
  transactions : UnorderedMap Hash TransactionChainEntry
  alternativeChains : UnorderedMap Hash BlockExtendedInfo
  invalidBlocks : UnorderedMap Hash BlockExtendedInfo

/-- The stores of version 16. -/
structure Stores where
  blockchainEntries : List BlockchainEntry
  blocksByHash : KeyedStore Hash Block
  blocksIndex : KeyedStore Hash Nat
  transactions : KeyedStore Hash TransactionChainEntry
  alternativeChainEntries : KeyedStore Hash BlockchainEntry
  invalidBlockEntries : KeyedStore Hash BlockchainEntry

def Stores.empty : Stores := ⟨[], [], [], [], [], []⟩

/-- The storage that works on the stores; the rest of it is not converted. -/
def Stores.inside (bs : Stores) (s : Storage) : Storage :=
  { s with
    entries := bs.blockchainEntries
    blocksByHash := bs.blocksByHash.load
    blocksIndex := bs.blocksIndex.load
    alternativeChainEntries := bs.alternativeChainEntries.load
    invalidBlockEntries := bs.invalidBlockEntries.load
    ledger := { s.ledger with transactions := bs.transactions.load } }

/-- The progress that is logged after round `i`, if any. -/
def logPct (i total : Nat) : Except Fault (Option Nat) :=
  if total / 20 = 0 then .error .divisionByZero
  else .ok (if (i + 1) % (total / 20) = 0 then some ((i + 1) / (total / 20) * 5) else none)

/-- A loop that logs its progress. -/
def forEnumLogged {α : Type} (total : Nat) (step : Stores → α → Stores) (items : List α)
    (bs : Stores) : Except Fault Stores :=
  forEnum (fun i item bs => do
    let bs := step bs item
    let _ ← logPct i total
    .ok bs) 0 items bs

section Conversion

variable (crypto : Crypto)

def beiToBent (bei : BlockExtendedInfo) : BlockchainEntry :=
  ⟨(getBlockHash crypto bei.bl).getD nullHash, bei.height, bei.bl.timestamp,
    bei.blockCumulativeSize, bei.cumulativeDifficulty, bei.alreadyGeneratedCoins⟩

namespace V15RamConverter

def convertBlock (bs : Stores) (bei : BlockExtendedInfo) : Stores :=
  let bent := beiToBent crypto bei
  { bs with
    blockchainEntries := bs.blockchainEntries ++ [bent]
    blocksByHash := bs.blocksByHash.store bent.hash bei.bl }

def convertIndex (bs : Stores) (p : Hash × Nat) : Stores :=
  { bs with blocksIndex := bs.blocksIndex.store p.1 p.2 }

def convertTransaction (bs : Stores) (p : Hash × TransactionChainEntry) : Stores :=
  { bs with transactions := bs.transactions.store p.1 p.2 }

def convertAlternative (bs : Stores) (p : Hash × BlockExtendedInfo) : Stores :=
  { bs with
    alternativeChainEntries := bs.alternativeChainEntries.store p.1 (beiToBent crypto p.2)
    blocksByHash := bs.blocksByHash.store p.1 p.2.bl }

def convertInvalid (bs : Stores) (p : Hash × BlockExtendedInfo) : Stores :=
  { bs with
    invalidBlockEntries := bs.invalidBlockEntries.store p.1 (beiToBent crypto p.2)
    blocksByHash := bs.blocksByHash.store p.1 p.2.bl }

def cleared : V15RamConverter :=
  ⟨false, [], UnorderedMap.empty, UnorderedMap.empty, UnorderedMap.empty, UnorderedMap.empty⟩

def processConversion (old : V15RamConverter) (bs : Stores) :
    Except Fault (Bool × V15RamConverter × Stores) :=
  if !old.requiresConversion || !bs.blockchainEntries.isEmpty || !bs.blocksByHash.isEmpty ||
      !bs.blocksIndex.isEmpty || !bs.transactions.isEmpty ||
      !bs.alternativeChainEntries.isEmpty || !bs.invalidBlockEntries.isEmpty then
    .ok (false, old, bs)
  else do
    let bs ← forEnumLogged old.blocks.length (convertBlock crypto) old.blocks bs
    -- the progress of this loop, too, is that of the blocks
    let bs ← forEnumLogged old.blocks.length convertIndex old.blocksIndex.toList bs
    let bs ← forEnumLogged old.transactions.toList.length convertTransaction
      old.transactions.toList bs
    let bs ← forEnumLogged old.alternativeChains.toList.length (convertAlternative crypto)
      old.alternativeChains.toList bs
    let bs ← forEnumLogged old.invalidBlocks.toList.length (convertInvalid crypto)
      old.invalidBlocks.toList bs
    .ok (true, cleared, bs)

def blockId (b : Block) : Hash := (getBlockHash crypto b).getD nullHash

/-- The blocks of the main chain, the alternative ones and the invalid ones. -/
def allBlocks (old : V15RamConverter) : List Block :=
  old.blocks.map (·.bl) ++ old.alternativeChains.toList.map (·.2.bl) ++
    old.invalidBlocks.toList.map (·.2.bl)

/-- The index is that of the main chain, every block is kept under its hash, and no two
different ones have the same. -/
structure Consistent (old : V15RamConverter) : Prop where
  required : old.requiresConversion = true
  indexed : ∀ p ∈ old.blocks.zipIdx, (blockId crypto p.1.bl, p.2) ∈ old.blocksIndex.toList
  index : ∀ p ∈ old.blocksIndex.toList,
    (old.blocks[p.2]?).map (fun bei => blockId crypto bei.bl) = some p.1
  alternatives : ∀ p ∈ old.alternativeChains.toList, blockId crypto p.2.bl = p.1
  invalid : ∀ p ∈ old.invalidBlocks.toList, blockId crypto p.2.bl = p.1
  bodies : ∀ b ∈ old.allBlocks, ∀ b' ∈ old.allBlocks, blockId crypto b = blockId crypto b' → b = b'

/-- The storage holds exactly the old data. -/
structure Converted (old : V15RamConverter) (s : Storage) : Prop where
  entries : s.entries = old.blocks.map (beiToBent crypto)
  blocks : ∀ h b, s.blocksByHash h = some b ↔ b ∈ old.allBlocks ∧ blockId crypto b = h
  index : ∀ h i, s.blocksIndex h = some i ↔ (h, i) ∈ old.blocksIndex.toList
  transactions : ∀ h e, s.ledger.transactions h = some e ↔ (h, e) ∈ old.transactions.toList
  alternatives : ∀ h bent, s.alternativeChainEntries h = some bent ↔
    ∃ bei, (h, bei) ∈ old.alternativeChains.toList ∧ bent = beiToBent crypto bei
  invalid : ∀ h bent, s.invalidBlockEntries h = some bent ↔
    ∃ bei, (h, bei) ∈ old.invalidBlocks.toList ∧ bent = beiToBent crypto bei

/-- No container is short without being empty. -/
def Loggable (old : V15RamConverter) : Prop :=
  ∀ n ∈ [old.blocks.length, old.transactions.toList.length, old.alternativeChains.toList.length,
    old.invalidBlocks.toList.length], n = 0 ∨ 20 ≤ n

theorem forEnumLogged_of_le {α : Type} {total : Nat} (htotal : 20 ≤ total)
    (step : Stores → α → Stores) (items : List α) (bs : Stores) :
    forEnumLogged total step items bs = .ok (items.foldl step bs) := by
  refine forEnum_eq_foldl (fun i item bs => ?_) 0 items bs
  have hstep : total / 20 ≠ 0 := by omega
  rw [logPct, if_neg hstep]
  rfl

theorem forEnumLogged_of_lt {α : Type} {total : Nat} (htotal : total < 20) {items : List α}
    (hitems : items ≠ []) (step : Stores → α → Stores) (bs : Stores) :
    forEnumLogged total step items bs = .error .divisionByZero := by
  refine forEnum_eq_error hitems (fun i item bs => ?_) 0 bs
  have hstep : total / 20 = 0 := by omega
  rw [logPct, if_pos hstep]
  rfl

theorem forEnumLogged_eq_ok_iff {α : Type} {items : List α} {step : Stores → α → Stores}
    {bs bs' : Stores} :
    forEnumLogged items.length step items bs = .ok bs' ↔
      (items.length = 0 ∨ 20 ≤ items.length) ∧ items.foldl step bs = bs' := by
  rcases Nat.lt_or_ge items.length 20 with hlt | hge
  · cases items with
    | nil => exact ⟨fun h => ⟨.inl rfl, Except.ok.inj h⟩, fun h => congrArg Except.ok h.2⟩
    | cons item items =>
      rw [forEnumLogged_of_lt hlt (List.cons_ne_nil _ _)]
      refine iff_of_false (fun h => by cases h) ?_
      rintro ⟨hnil | hge, -⟩
      · cases hnil
      · omega
  · rw [forEnumLogged_of_le hge, Except.ok.injEq, and_iff_right (.inr hge)]

/-- The pairs under which the blocks are stored, loop by loop. -/
def blockPairs (old : V15RamConverter) : List (Hash × Block) :=
  old.blocks.map (fun bei => (blockId crypto bei.bl, bei.bl)) ++
    old.alternativeChains.toList.map (fun p => (p.1, p.2.bl)) ++
    old.invalidBlocks.toList.map (fun p => (p.1, p.2.bl))

theorem foldl_convertBlock (items : List BlockExtendedInfo) (bs : Stores) :
    items.foldl (convertBlock crypto) bs = { bs with
      blockchainEntries := bs.blockchainEntries ++ items.map (beiToBent crypto)
      blocksByHash := bs.blocksByHash.storeAll
        (items.map fun bei => (blockId crypto bei.bl, bei.bl)) } := by
  induction items generalizing bs with
  | nil => simp [KeyedStore.storeAll]
  | cons bei items ih =>
    rw [List.foldl_cons, ih, convertBlock]
    simp only [List.append_assoc, List.map_cons, List.singleton_append]
    rfl

theorem foldl_convertIndex (items : List (Hash × Nat)) (bs : Stores) :
    items.foldl convertIndex bs = { bs with blocksIndex := bs.blocksIndex.storeAll items } := by
  induction items generalizing bs with
  | nil => rfl
  | cons p items ih => rw [List.foldl_cons, ih]; rfl

theorem foldl_convertTransaction (items : List (Hash × TransactionChainEntry)) (bs : Stores) :
    items.foldl convertTransaction bs =
      { bs with transactions := bs.transactions.storeAll items } := by
  induction items generalizing bs with
  | nil => rfl
  | cons p items ih => rw [List.foldl_cons, ih]; rfl

theorem foldl_convertAlternative (items : List (Hash × BlockExtendedInfo)) (bs : Stores) :
    items.foldl (convertAlternative crypto) bs = { bs with
      alternativeChainEntries := bs.alternativeChainEntries.storeAll
        (items.map fun p => (p.1, beiToBent crypto p.2))
      blocksByHash := bs.blocksByHash.storeAll (items.map fun p => (p.1, p.2.bl)) } := by
  induction items generalizing bs with
  | nil => rfl
  | cons p items ih => rw [List.foldl_cons, ih]; rfl

theorem foldl_convertInvalid (items : List (Hash × BlockExtendedInfo)) (bs : Stores) :
    items.foldl (convertInvalid crypto) bs = { bs with
      invalidBlockEntries := bs.invalidBlockEntries.storeAll
        (items.map fun p => (p.1, beiToBent crypto p.2))
      blocksByHash := bs.blocksByHash.storeAll (items.map fun p => (p.1, p.2.bl)) } := by
  induction items generalizing bs with
  | nil => rfl
  | cons p items ih => rw [List.foldl_cons, ih]; rfl

/-- The stores after the five loops. -/
def stored (old : V15RamConverter) : Stores where
  blockchainEntries := old.blocks.map (beiToBent crypto)
  blocksByHash := KeyedStore.storeAll [] (old.blockPairs crypto)
  blocksIndex := KeyedStore.storeAll [] old.blocksIndex.toList
  transactions := KeyedStore.storeAll [] old.transactions.toList
  alternativeChainEntries := KeyedStore.storeAll []
    (old.alternativeChains.toList.map fun p => (p.1, beiToBent crypto p.2))
  invalidBlockEntries := KeyedStore.storeAll []
    (old.invalidBlocks.toList.map fun p => (p.1, beiToBent crypto p.2))

variable {crypto} {old old' : V15RamConverter} {bs' : Stores}

theorem Consistent.index_eq_nil (h : Consistent crypto old) (hblocks : old.blocks = []) :
    old.blocksIndex.toList = [] := by
  refine List.eq_nil_iff_forall_not_mem.mpr fun p hp => ?_
  have hindex := h.index p hp
  rw [hblocks] at hindex
  cases hindex

theorem forEnumLogged_index (h : Consistent crypto old)
    (hsize : old.blocks.length = 0 ∨ 20 ≤ old.blocks.length) (bs : Stores) :
    forEnumLogged old.blocks.length convertIndex old.blocksIndex.toList bs =
      .ok (old.blocksIndex.toList.foldl convertIndex bs) := by
  rcases hsize with hzero | hge
  · rw [h.index_eq_nil (List.length_eq_zero_iff.mp hzero)]
    rfl
  · exact forEnumLogged_of_le hge _ _ _

variable (crypto old) in
theorem foldl_convert :
    old.invalidBlocks.toList.foldl (convertInvalid crypto)
      (old.alternativeChains.toList.foldl (convertAlternative crypto)
        (old.transactions.toList.foldl convertTransaction
          (old.blocksIndex.toList.foldl convertIndex
            (old.blocks.foldl (convertBlock crypto) Stores.empty)))) = old.stored crypto := by
  rw [foldl_convertBlock, foldl_convertIndex, foldl_convertTransaction, foldl_convertAlternative,
    foldl_convertInvalid]
  simp only [stored, blockPairs, KeyedStore.storeAll, List.foldl_append, Stores.empty,
    List.nil_append]

theorem loggable_iff : old.Loggable ↔
    (old.blocks.length = 0 ∨ 20 ≤ old.blocks.length) ∧
    (old.transactions.toList.length = 0 ∨ 20 ≤ old.transactions.toList.length) ∧
    (old.alternativeChains.toList.length = 0 ∨ 20 ≤ old.alternativeChains.toList.length) ∧
    (old.invalidBlocks.toList.length = 0 ∨ 20 ≤ old.invalidBlocks.toList.length) := by
  simp only [Loggable, List.forall_mem_cons, List.not_mem_nil, false_imp_iff, implies_true, and_true]

/-- The conversion succeeds if every loop can log its progress, and then it stores everything. -/
theorem processConversion_eq_ok_iff (h : Consistent crypto old) :
    old.processConversion crypto Stores.empty = .ok (true, old', bs') ↔
      old.Loggable ∧ old' = cleared ∧ bs' = old.stored crypto := by
  have hchecks : (!old.requiresConversion || !Stores.empty.blockchainEntries.isEmpty ||
      !Stores.empty.blocksByHash.isEmpty || !Stores.empty.blocksIndex.isEmpty ||
      !Stores.empty.transactions.isEmpty || !Stores.empty.alternativeChainEntries.isEmpty ||
      !Stores.empty.invalidBlockEntries.isEmpty) = false := by
    rw [h.required]
    rfl
  rw [processConversion, hchecks, if_neg Bool.false_ne_true, loggable_iff]
  constructor
  · intro hrun
    obtain ⟨bs₁, h₁, hrun⟩ := bind_eq_ok_iff.mp hrun
    obtain ⟨hblocks, rfl⟩ := forEnumLogged_eq_ok_iff.mp h₁
    rw [forEnumLogged_index h hblocks, ok_bind] at hrun
    obtain ⟨bs₃, h₃, hrun⟩ := bind_eq_ok_iff.mp hrun
    obtain ⟨htxs, rfl⟩ := forEnumLogged_eq_ok_iff.mp h₃
    obtain ⟨bs₄, h₄, hrun⟩ := bind_eq_ok_iff.mp hrun
    obtain ⟨halt, rfl⟩ := forEnumLogged_eq_ok_iff.mp h₄
    obtain ⟨bs₅, h₅, hrun⟩ := bind_eq_ok_iff.mp hrun
    obtain ⟨hinvalid, rfl⟩ := forEnumLogged_eq_ok_iff.mp h₅
    rw [foldl_convert] at hrun
    cases hrun
    exact ⟨⟨hblocks, htxs, halt, hinvalid⟩, rfl, rfl⟩
  · rintro ⟨⟨hblocks, htxs, halt, hinvalid⟩, rfl, rfl⟩
    rw [forEnumLogged_eq_ok_iff.mpr ⟨hblocks, rfl⟩, ok_bind, forEnumLogged_index h hblocks, ok_bind,
      forEnumLogged_eq_ok_iff.mpr ⟨htxs, rfl⟩, ok_bind, forEnumLogged_eq_ok_iff.mpr ⟨halt, rfl⟩,
      ok_bind, forEnumLogged_eq_ok_iff.mpr ⟨hinvalid, rfl⟩, ok_bind, foldl_convert]

theorem mem_blockPairs (h : Consistent crypto old) {k : Hash} {b : Block} :
    (k, b) ∈ old.blockPairs crypto ↔ b ∈ old.allBlocks ∧ blockId crypto b = k := by
  simp only [blockPairs, allBlocks, List.mem_append, List.mem_map, Prod.mk.injEq]
  constructor
  · rintro ((⟨bei, hbei, rfl, rfl⟩ | ⟨p, hp, rfl, rfl⟩) | ⟨p, hp, rfl, rfl⟩)
    · exact ⟨.inl (.inl ⟨bei, hbei, rfl⟩), rfl⟩
    · exact ⟨.inl (.inr ⟨p, hp, rfl⟩), h.alternatives p hp⟩
    · exact ⟨.inr ⟨p, hp, rfl⟩, h.invalid p hp⟩
  · rintro ⟨(⟨bei, hbei, rfl⟩ | ⟨p, hp, rfl⟩) | ⟨p, hp, rfl⟩, rfl⟩
    · exact .inl (.inl ⟨bei, hbei, rfl, rfl⟩)
    · exact .inl (.inr ⟨p, hp, (h.alternatives p hp).symm, rfl⟩)
    · exact .inr ⟨p, hp, (h.invalid p hp).symm, rfl⟩

theorem load_storeAll_entries {m : UnorderedMap Hash BlockExtendedInfo} {k : Hash}
    {bent : BlockchainEntry} :
    KeyedStore.load (KeyedStore.storeAll [] (m.toList.map fun p => (p.1, beiToBent crypto p.2))) k =
        some bent ↔
      ∃ bei, (k, bei) ∈ m.toList ∧ bent = beiToBent crypto bei := by
  rw [KeyedStore.load_storeAll_nil]
  · simp only [List.mem_map, Prod.mk.injEq, Prod.exists]
    constructor
    · rintro ⟨k', bei, hmem, rfl, rfl⟩
      exact ⟨bei, hmem, rfl⟩
    · rintro ⟨bei, hmem, rfl⟩
      exact ⟨k, bei, hmem, rfl, rfl⟩
  · intro k v v' hv hv'
    simp only [List.mem_map, Prod.mk.injEq, Prod.exists] at hv hv'
    obtain ⟨k₁, bei, hmem, rfl, rfl⟩ := hv
    obtain ⟨k₂, bei', hmem', rfl, rfl⟩ := hv'
    rw [UnorderedMap.value_unique hmem hmem']

theorem stored_converted (h : Consistent crypto old) (s : Storage) :
    Converted crypto old ((old.stored crypto).inside s) where
  entries := rfl
  blocks k b := by
    rw [← mem_blockPairs h]
    refine KeyedStore.load_storeAll_nil fun k v v' hv hv' => ?_
    obtain ⟨hmem, hid⟩ := (mem_blockPairs h).mp hv
    obtain ⟨hmem', hid'⟩ := (mem_blockPairs h).mp hv'
    exact h.bodies v hmem v' hmem' (hid.trans hid'.symm)
  index _ _ := KeyedStore.load_storeAll_nil fun _ _ _ => UnorderedMap.value_unique
  transactions _ _ := KeyedStore.load_storeAll_nil fun _ _ _ => UnorderedMap.value_unique
  alternatives _ _ := load_storeAll_entries
  invalid _ _ := load_storeAll_entries

/-- The conversion of a consistent state completes, with all of the old data in the new stores,
exactly if none of the containers has between one and nineteen elements. -/
theorem processConversion_converts_iff (h : Consistent crypto old) (s : Storage) :
    (∃ old' bs', old.processConversion crypto Stores.empty = .ok (true, old', bs') ∧
      Converted crypto old (bs'.inside s)) ↔ old.Loggable := by
  constructor
  · rintro ⟨old', bs', hrun, -⟩
    exact ((processConversion_eq_ok_iff h).mp hrun).1
  · intro hlog
    exact ⟨cleared, old.stored crypto, (processConversion_eq_ok_iff h).mpr ⟨hlog, rfl, rfl⟩,
      stored_converted h s⟩

def sampleMainBlocks : List BlockExtendedInfo :=
  (Storage.samplePowBlocks 20 0 nullHash).zipIdx.map fun p => ⟨p.1, p.2, 0, 0, 0⟩

def sampleBlocksIndex : List (Hash × Nat) :=
  sampleMainBlocks.map fun bei => (Storage.sampleId bei.bl, bei.height)

theorem nodup_sampleBlocksIndex : (sampleBlocksIndex.map Prod.fst).Nodup := by decide +kernel

theorem indexed_sampleMainBlocks : ∀ p ∈ sampleMainBlocks.zipIdx,
    (blockId sampleCrypto p.1.bl, p.2) ∈ sampleBlocksIndex := by decide +kernel

theorem index_sampleMainBlocks : ∀ p ∈ sampleBlocksIndex,
    (sampleMainBlocks[p.2]?).map (fun bei => blockId sampleCrypto bei.bl) = some p.1 := by
  decide +kernel

/-- Twenty blocks, no transaction and the given alternative blocks. -/
def sampleConverter (alternativeChains : UnorderedMap Hash BlockExtendedInfo) : V15RamConverter :=
  ⟨true, sampleMainBlocks, ⟨sampleBlocksIndex, nodup_sampleBlocksIndex⟩, .empty, alternativeChains,
    .empty⟩

/-- An alternative to the block at height five. -/
def sampleAlternative : UnorderedMap Hash BlockExtendedInfo :=
  let b := Storage.sampleBlock 1 5 999 nullHash []
  ⟨[(Storage.sampleId b, ⟨b, 5, 0, 0, 0⟩)], List.nodup_singleton _⟩

theorem sampleConverter_consistent {alternativeChains : UnorderedMap Hash BlockExtendedInfo}
    (halternatives : ∀ p ∈ alternativeChains.toList, blockId sampleCrypto p.2.bl = p.1)
    (hbodies : ((sampleConverter alternativeChains).allBlocks.map (blockId sampleCrypto)).Nodup) :
    Consistent sampleCrypto (sampleConverter alternativeChains) where
  required := rfl
  indexed := indexed_sampleMainBlocks
  index := index_sampleMainBlocks
  alternatives := halternatives
  invalid _ hp := by cases hp
  bodies _ hb _ hb' := List.inj_on_of_nodup_map hbodies hb hb'

theorem processConversion_faults_of_sampleAlternative :
    Consistent sampleCrypto (sampleConverter sampleAlternative) ∧
      (sampleConverter sampleAlternative).processConversion sampleCrypto Stores.empty =
        .error .divisionByZero := by
  refine ⟨sampleConverter_consistent (by decide +kernel) (by decide +kernel), ?_⟩
  have hmain : 20 ≤ (sampleConverter sampleAlternative).blocks.length := by decide +kernel
  rw [processConversion, if_neg (by decide), forEnumLogged_of_le hmain, ok_bind,
    forEnumLogged_of_le hmain, ok_bind]
  rfl

theorem processConversion_converts_of_sampleConverter :
    ∃ old' bs', (sampleConverter .empty).processConversion sampleCrypto Stores.empty =
        .ok (true, old', bs') ∧
      Converted sampleCrypto (sampleConverter .empty) (bs'.inside Storage.empty) :=
  (processConversion_converts_iff
    (sampleConverter_consistent (by decide +kernel) (by decide +kernel)) Storage.empty).mpr
    (by unfold Loggable; decide +kernel)

end V15RamConverter

end Conversion

end Pebblecoin
