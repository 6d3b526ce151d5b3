import Pebblecoin.Containers.Lineage
import Pebblecoin.WalletRefresh

/-!
Where the chain of a wallet leaves that of its daemon, and when a refresh brings it
back.
-/

namespace Pebblecoin

open Containers

namespace Wallet2

section Loop

variable {crypto : Crypto} {store : Hash → Option Block}
  {chain : List BlockCompleteEntry} {c : List Hash}

/-- The ids of a chain of blocks of the store, each on top of the one before it. -/
def ChainIds (store : Hash → Option Block) (c : List Hash) : Prop :=
  ∃ blocks : List (Hash × Block), c = blocks.map Prod.fst ∧
    Lineage (fun b : Block => b.prevId) (fun b => (getBlockHeight b).toNat) store blocks

theorem ChainIds.take (h : ChainIds store c) (n : Nat) : ChainIds store (c.take n) := by
  obtain ⟨blocks, rfl, hlineage⟩ := h
  exact ⟨blocks.take n, by rw [List.map_take], Lineage.take hlineage n⟩

theorem ChainIds.related {d : List Hash} (hc : ChainIds store c) (hd : ChainIds store d)
    (hne : c ≠ []) (hhead : c.head? = d.head?) : Related c d := by
  obtain ⟨blocks, rfl, hblocks⟩ := hc
  obtain ⟨blocks', rfl, hblocks'⟩ := hd
  refine ⟨hhead, hne, fun i j x hi hj => ?_⟩
  have hlast : ∀ {bs : List (Hash × Block)} {n : Nat}, (bs.map Prod.fst)[n]? = some x →
      (bs.take (n + 1)).getLast?.map Prod.fst = some x := by
    intro bs n hx
    rw [List.getElem?_map] at hx
    obtain ⟨p, hp, rfl⟩ := Option.map_eq_some_iff.mp hx
    rw [List.take_add_one, hp, Option.toList_some, List.getLast?_concat]
    rfl
  have heq := Lineage.unique (Lineage.take hblocks (i + 1)) (Lineage.take hblocks' (j + 1))
    (hlast hi) (hlast hj)
  rw [← List.map_take, ← List.map_take, heq]

/-- The wallet is behind the daemon, or the answer to its history goes beyond the
block at the fork (or ends with it and with the chain). -/
def ForkAnswered (c d : List Hash) : Prop :=
  c <+: d ∨ ∃ start, findBlockchainSupplement d (getShortChainHistory c) = some start ∧
    (forkIndex c d + 1 < start + commandRpcGetBlocksFastMaxCount ∨
      forkIndex c d + 1 = start + commandRpcGetBlocksFastMaxCount ∧ d.length = forkIndex c d + 1)

theorem forkIndex_lt_of_length_le {d : List Hash} {n : Nat} (h : c.length ≤ n) (hc : ¬ c <+: d) :
    forkIndex c d < n := by
  have hle := forkIndex_le_left c d
  have hne : forkIndex c d ≠ c.length := fun heq => hc (forkIndex_eq_length_iff.mp heq)
  omega

/-- One attempt leaves the chain as it was or makes it a part of that of the daemon,
and an attempt that adds nothing has reached the end. -/
theorem pullBlocks_step (keys : AccountKeys) (session : Session) {w : Wallet2}
    (hrelated : Related w.blockchain (idsOf crypto chain))
    (hbeyond : ¬ w.blockchain <+: idsOf crypto chain →
      forkIndex w.blockchain (idsOf crypto chain) < chain.length)
    (hanswered : ForkAnswered w.blockchain (idsOf crypto chain)) :
    ((w.pullBlocks crypto keys chain session).wallet.blockchain = w.blockchain ∨
        ∃ m, 0 < m ∧ (w.pullBlocks crypto keys chain session).wallet.blockchain =
          (idsOf crypto chain).take m) ∧
      ((w.pullBlocks crypto keys chain session).error = none →
        (w.pullBlocks crypto keys chain session).blocksAdded = 0 →
        (w.pullBlocks crypto keys chain session).wallet.blockchain = idsOf crypto chain) := by
  cases hconnected : session.connected with
  | false => simp [pullBlocks, hconnected]
  | true =>
    obtain ⟨start, hstart, hbelow⟩ := hrelated.findBlockchainSupplement
    have hle := forkIndex_le_left w.blockchain (idsOf crypto chain)
    have hright := forkIndex_le_right w.blockchain (idsOf crypto chain)
    rw [length_idsOf] at hright
    have hcount : commandRpcGetBlocksFastMaxCount = 1000 := rfl
    -- the answer goes beyond the fork, or ends with the chain
    have hreach : forkIndex w.blockchain (idsOf crypto chain) <
          start + commandRpcGetBlocksFastMaxCount ∧
        (min (start + commandRpcGetBlocksFastMaxCount) chain.length ≤
            min w.blockchain.length (forkIndex w.blockchain (idsOf crypto chain) + 1) →
          chain.length ≤ start + commandRpcGetBlocksFastMaxCount) := by
      rcases hanswered with hext | ⟨start', hstart', hfork⟩
      · have hlast := hrelated.findBlockchainSupplement_of_prefix hext
        obtain rfl : w.blockchain.length - 1 = start :=
          Option.some.inj (hlast.symm.trans hstart)
        rw [forkIndex_eq_length_iff.mpr hext]
        omega
      · obtain rfl : start' = start := Option.some.inj (hstart'.symm.trans hstart)
        rw [length_idsOf] at hfork
        omega
    rcases pullBlocks_near keys hconnected hstart hbelow hreach.1 hbeyond with hover | hthrown
    · obtain ⟨⟨m, hm, hsome⟩, hall⟩ := hover.of_page (take_forkIndex _ _) (by omega)
      refine ⟨Or.inr ⟨m, by omega, hsome⟩, fun herror hadded => ?_⟩
      obtain ⟨hchain, hadded'⟩ := hall herror
      have hend := Nat.sub_eq_zero_iff_le.mp (hadded'.symm.trans hadded)
      rw [List.length_take] at hend
      rw [hchain, List.take_of_length_le]
      rw [length_idsOf]
      exact hreach.2 hend
    · exact ⟨Or.inl hthrown.2, fun herror => (hthrown.1 herror).elim⟩

theorem forkAnswered_take {m : Nat} {d : List Hash} : ForkAnswered (d.take m) d :=
  Or.inl (List.take_prefix _ _)

theorem refresh_finished {keys : AccountKeys} {sessions : List Session} {tries fetched : Nat}
    {w : Wallet2} (hchain : ChainIds store (idsOf crypto chain)) (hw : ChainIds store w.blockchain)
    (hne : w.blockchain ≠ []) (hhead : w.blockchain.head? = (idsOf crypto chain).head?)
    (hlength : w.blockchain.length ≤ chain.length)
    (hanswered : ForkAnswered w.blockchain (idsOf crypto chain))
    (h : (w.refresh crypto keys chain sessions tries fetched).exit = .finished) :
    (w.refresh crypto keys chain sessions tries fetched).wallet.blockchain = idsOf crypto chain := by
  induction sessions generalizing tries fetched w with
  | nil => cases h
  | cons session sessions ih =>
    have hrelated := hw.related hchain hne hhead
    obtain ⟨hkept, hdone⟩ := pullBlocks_step keys session hrelated
      (forkIndex_lt_of_length_le hlength) hanswered
    rw [refresh] at h ⊢
    generalize w.pullBlocks crypto keys chain session = r at hkept hdone h ⊢
    -- the next attempt starts from the same chain or from a part of the daemon's
    have hnext : ∀ {tries fetched}, (r.wallet.refresh crypto keys chain sessions tries
        fetched).exit = .finished → (r.wallet.refresh crypto keys chain sessions tries
        fetched).wallet.blockchain = idsOf crypto chain := by
      intro tries fetched hfinished
      rcases hkept with hsame | ⟨m, hm, htake⟩
      · exact ih (hsame ▸ hw) (hsame ▸ hne) (hsame ▸ hhead) (hsame ▸ hlength)
          (hsame ▸ hanswered) hfinished
      · have hpos : idsOf crypto chain ≠ [] := by
          intro hnil
          rw [hnil, List.head?_nil, List.head?_eq_none_iff] at hhead
          exact hne hhead
        refine ih (htake ▸ hchain.take m) ?_ ?_ ?_ (htake ▸ forkAnswered_take) hfinished
        · rw [htake, ne_eq, List.take_eq_nil_iff, not_or]
          exact ⟨hm.ne', hpos⟩
        · rw [htake, List.head?_take, if_neg hm.ne']
        · rw [htake, List.length_take, length_idsOf]
          exact Nat.min_le_right _ _
    cases herror : r.error with
    | none =>
      simp only [herror] at h ⊢
      split_ifs at h ⊢ with hadded
      · exact hdone herror hadded
      · exact hnext h
    | some e =>
      simp only [herror] at h ⊢
      split_ifs at h ⊢
      exact hnext h

/-- The keys of an account that is younger than every block. -/
def youngKeys : AccountKeys where
  derivePublicKey _ _ := none
  generateKeyImage _ _ := nullHash
  createtime := 0xffffffffffffffff

def goodSession : Session := ⟨true, fun _ => none, true⟩

theorem scanBlock_youngKeys (session : Session) (entry : BlockCompleteEntry) (height : Nat)
    (w : Wallet2) : w.scanBlock crypto youngKeys session entry height = (none, w) := by
  have hmax : youngKeys.createtime.toNat = 2 ^ 64 - 1 := by decide
  have hlt := UInt64.toNat_lt (entry.block.timestamp + 60 * 60 * 24)
  refine if_neg (UInt64.not_lt.mpr ?_)
  rw [UInt64.le_iff_toNat_le, hmax]
  omega

variable (crypto) in
theorem processNewBlockchainEntry_youngKeys (entry : BlockCompleteEntry) (id : Hash) (w : Wallet2) :
    (w.processNewBlockchainEntry crypto youngKeys goodSession entry id w.blockchain.length).1 =
      none := by
  rw [processNewBlockchainEntry, if_neg (not_not.mpr rfl), scanBlock_youngKeys]
  exact congrArg Prod.fst (if_neg fun hstore => Bool.false_ne_true hstore.2)

theorem detachBlockchain_bareWallet (height : Nat) (c : List Hash) :
    ((bareWallet c).detachBlockchain height).1 = none := rfl

theorem pullEntries_bareWallet {entry : BlockCompleteEntry} {index start : Nat}
    (hindex : index < c.length) (hsplit : (c)[index]? ≠ some (blockId crypto entry.block))
    (hstart : index ≠ start) :
    (pullEntries crypto youngKeys goodSession start [entry] index 0 (bareWallet c)).error = none := by
  obtain ⟨id, hid⟩ : ∃ id, (bareWallet c).blockchain[index]? = some id :=
    ⟨_, List.getElem?_eq_getElem hindex⟩
  have hne : blockId crypto entry.block ≠ id := by
    rintro rfl
    exact hsplit hid
  simp only [pullEntries, hid, if_pos hne, if_neg hstart]
  have hnone := detachBlockchain_bareWallet index c
  cases hdetach : (bareWallet c).detachBlockchain index with
  | mk e w =>
    rw [hdetach] at hnone
    subst hnone
    have hlength : index = w.blockchain.length := by
      rcases detachBlockchain_blockchain hdetach with ⟨-, hchain⟩ | ⟨hthrown, -⟩
      · rw [hchain, List.length_take]
        exact (Nat.min_eq_left hindex.le).symm
      · exact (hthrown rfl).elim
    have hprocess := processNewBlockchainEntry_youngKeys crypto entry
      (blockId crypto entry.block) w
    rw [← hlength] at hprocess
    dsimp only
    generalize w.processNewBlockchainEntry crypto youngKeys goodSession entry
      (blockId crypto entry.block) index = r at hprocess ⊢
    obtain ⟨e, w'⟩ := r
    subst hprocess
    rfl

theorem pullBlocks_bareWallet {start : Nat} (hlength : c.length ≤ chain.length)
    (hstart : findBlockchainSupplement (idsOf crypto chain) (getShortChainHistory c) = some start)
    (hbelow : start < forkIndex c (idsOf crypto chain)) (hfork : forkIndex c (idsOf crypto chain) < c.length)
    (hlast : forkIndex c (idsOf crypto chain) + 1 = start + commandRpcGetBlocksFastMaxCount) :
    ((bareWallet c).pullBlocks crypto youngKeys chain goodSession).error = none := by
  have hnear : forkIndex c (idsOf crypto chain) < start + commandRpcGetBlocksFastMaxCount := by omega
  rw [pullBlocks_eq_pullEntries youngKeys rfl hstart hbelow hnear, ← hlast]
  dsimp only [bareWallet]
  have hne := getElem?_forkIndex_ne hfork
  generalize forkIndex c (idsOf crypto chain) = f at hbelow hfork hne ⊢
  have hlt : f < chain.length := by omega
  have hentry : (idsOf crypto chain)[f]? = some (blockId crypto chain[f].block) := by
    rw [idsOf, List.getElem?_map, List.getElem?_eq_getElem hlt]
    rfl
  rw [hentry] at hne
  rw [List.drop_take, List.drop_eq_getElem_cons hlt, Nat.add_sub_cancel_left, List.take_succ_cons,
    List.take_zero]
  exact pullEntries_bareWallet hfork hne (by omega)

theorem refresh_finished_of_pull {keys : AccountKeys} {session : Session} {w : Wallet2}
    (herror : (w.pullBlocks crypto keys chain session).error = none)
    (hadded : (w.pullBlocks crypto keys chain session).blocksAdded = 0) :
    (w.refresh crypto keys chain [session] 0 0).exit = .finished ∧
      (w.refresh crypto keys chain [session] 0 0).wallet =
        (w.pullBlocks crypto keys chain session).wallet := by
  simp [refresh, herror, hadded]

theorem refresh_left_behind (hrelated : Related c (idsOf crypto chain))
    (hlength : c.length ≤ chain.length) (h : ¬ ForkAnswered c (idsOf crypto chain)) :
    ((bareWallet c).refresh crypto youngKeys chain [goodSession] 0 0).exit = .finished ∧
      ((bareWallet c).refresh crypto youngKeys chain [goodSession] 0 0).wallet.blockchain ≠
        idsOf crypto chain := by
  obtain ⟨start, hstart, hbelow⟩ := hrelated.findBlockchainSupplement
  rw [ForkAnswered, not_or, not_exists] at h
  obtain ⟨hext, hfar⟩ := h
  have hfar := not_or.mp fun hnear => hfar start ⟨hstart, hnear⟩
  have hle := forkIndex_le_left c (idsOf crypto chain)
  have hfork : forkIndex c (idsOf crypto chain) < c.length :=
    lt_of_le_of_ne hle fun heq => hext (forkIndex_eq_length_iff.mp heq)
  rcases Nat.lt_or_ge (forkIndex c (idsOf crypto chain)) (start + commandRpcGetBlocksFastMaxCount)
    with hnear | hbeyond
  · have hlast : forkIndex c (idsOf crypto chain) + 1 = start + commandRpcGetBlocksFastMaxCount := by
      omega
    have herror := pullBlocks_bareWallet hlength hstart hbelow hfork hlast
    have hover := (pullBlocks_near youngKeys rfl hstart hbelow hnear
        (forkIndex_lt_of_length_le hlength)).resolve_right
      fun hthrown => hthrown.1 herror
    obtain ⟨hchain, hadded⟩ := (hover.of_page (take_forkIndex _ _) hnear.le).2 herror
    have hshorter : forkIndex c (idsOf crypto chain) + 1 < chain.length := by
      have hne := not_and.mp hfar.2 hlast
      rw [length_idsOf] at hne
      omega
    obtain ⟨hexit, hwallet⟩ := refresh_finished_of_pull herror (by
      rw [hadded, List.length_take]
      dsimp only [bareWallet]
      omega)
    refine ⟨hexit, fun heq => ?_⟩
    rw [hwallet, hchain] at heq
    have hall := congrArg List.length heq
    rw [List.length_take, length_idsOf] at hall
    omega
  · have hpull : (bareWallet c).pullBlocks crypto youngKeys chain goodSession =
        ⟨none, 0, bareWallet c⟩ := pullBlocks_far youngKeys rfl hstart hbelow hbeyond
    obtain ⟨hexit, hwallet⟩ := refresh_finished_of_pull (congrArg PullResult.error hpull)
      (congrArg PullResult.blocksAdded hpull)
    refine ⟨hexit, ?_⟩
    rw [hwallet, hpull]
    exact fun heq => hext (heq ▸ List.prefix_rfl)

/-- Whatever wallet has the chain `c`: a refresh that ends normally ends with the
chain of the daemon exactly if the fork is answered. -/
theorem refresh_reaches_daemon_iff (hchain : ChainIds store (idsOf crypto chain))
    (hc : ChainIds store c) (hne : c ≠ []) (hhead : c.head? = (idsOf crypto chain).head?)
    (hlength : c.length ≤ chain.length) :
    (∀ keys sessions (w : Wallet2), w.blockchain = c →
      (w.refresh crypto keys chain sessions 0 0).exit = .finished →
      (w.refresh crypto keys chain sessions 0 0).wallet.blockchain = idsOf crypto chain) ↔
      ForkAnswered c (idsOf crypto chain) := by
  constructor
  · intro h
    by_contra hunanswered
    obtain ⟨hexit, hbehind⟩ :=
      refresh_left_behind (hc.related hchain hne hhead) hlength hunanswered
    exact hbehind (h youngKeys [goodSession] (bareWallet c) rfl hexit)
  · rintro hanswered keys sessions w rfl hexit
    exact refresh_finished hchain hc hne hhead hlength hanswered hexit

end Loop

/-- The heights of the blocks of the history. -/
def historyHeightsLoop (size : Nat) : (fuel i multiplier backOffset : Nat) → List Nat
  | 0, _, _, _ => []
  | fuel + 1, i, multiplier, backOffset =>
    if backOffset < size then
      (size - backOffset) ::
        if i < 10 then historyHeightsLoop size fuel (i + 1) multiplier (backOffset + 1)
        else historyHeightsLoop size fuel (i + 1) (multiplier * 2) (backOffset + multiplier * 2)
    else []

def historyHeights (size : Nat) : List Nat := historyHeightsLoop size size 0 1 1 ++ [0]

theorem shortChainHistoryLoop_eq (c : List Hash) (fuel i multiplier backOffset : Nat) :
    shortChainHistoryLoop c fuel i multiplier backOffset =
      (historyHeightsLoop c.length fuel i multiplier backOffset).map (c.getD · nullHash) := by
  induction fuel generalizing i multiplier backOffset with
  | zero => rfl
  | succ fuel ih =>
    rw [shortChainHistoryLoop, historyHeightsLoop]
    split_ifs
    · rw [ih, List.map_cons]
    · rw [ih, List.map_cons]
    · rfl

theorem getShortChainHistory_eq {c : List Hash} (hne : c ≠ []) :
    getShortChainHistory c = (historyHeights c.length).map (c.getD · nullHash) := by
  obtain ⟨a, c, rfl⟩ := List.exists_cons_of_ne_nil hne
  rw [getShortChainHistory, if_neg (by simp), shortChainHistoryLoop_eq, historyHeights,
    List.map_append]
  rfl

theorem lt_of_mem_historyHeightsLoop {size fuel i multiplier backOffset h : Nat}
    (hoffset : 1 ≤ backOffset) (hh : h ∈ historyHeightsLoop size fuel i multiplier backOffset) :
    h < size := by
  induction fuel generalizing i multiplier backOffset with
  | zero => cases hh
  | succ fuel ih =>
    rw [historyHeightsLoop] at hh
    split_ifs at hh
    · rcases List.mem_cons.mp hh with rfl | hh
      · omega
      · exact ih (by omega) hh
    · rcases List.mem_cons.mp hh with rfl | hh
      · omega
      · exact ih (by omega) hh
    · cases hh

theorem Related.findBlockchainSupplement_eq {c d : List Hash} (h : Related c d) :
    Pebblecoin.findBlockchainSupplement d (getShortChainHistory c) =
      (historyHeights c.length).find? fun height => decide (height < forkIndex c d) := by
  obtain ⟨start, hstart, -⟩ := h.findBlockchainSupplement
  rw [hstart]
  rw [Pebblecoin.findBlockchainSupplement] at hstart
  split_ifs at hstart
  rw [← hstart, getShortChainHistory_eq h.nonempty, List.findSome?_map]
  have hpos := List.length_pos_iff.mpr h.nonempty
  have hlt : ∀ n ∈ historyHeights c.length, n < c.length := by
    intro n hn
    rcases List.mem_append.mp hn with hn | hn
    · exact lt_of_mem_historyHeightsLoop le_rfl hn
    · rw [List.mem_singleton.mp hn]
      exact hpos
  have hlookup : ∀ n < c.length, d.idxOf? (c.getD n nullHash) =
      if n < forkIndex c d then some n else none := by
    intro n hn
    have hget : (c)[n]? = some (c.getD n nullHash) := by
      rw [List.getD_eq_getElem?_getD, List.getElem?_eq_getElem hn]
      rfl
    split_ifs with hfork
    · have hmem : d[n]? = some (c.getD n nullHash) := by
        rw [← hget, ← List.getElem?_take_of_lt hfork, ← take_forkIndex,
          List.getElem?_take_of_lt hfork]
      obtain ⟨j, hj⟩ := Option.isSome_iff_exists.mp
        (List.isSome_idxOf?.mpr (List.mem_of_getElem? hmem))
      rw [hj, h.height_eq hget (getElem?_of_idxOf? hj)]
    · refine Option.eq_none_iff_forall_ne_some.mpr fun j hj => hfork ?_
      rw [h.height_eq hget (getElem?_of_idxOf? hj)]
      exact h.lt_forkIndex hget (getElem?_of_idxOf? hj)
  generalize historyHeights c.length = heights at hlt ⊢
  induction heights with
  | nil => rfl
  | cons n ns ih =>
    rw [List.findSome?_cons, List.find?_cons, Function.comp_apply,
      hlookup n (hlt n List.mem_cons_self)]
    by_cases hfork : n < forkIndex c d
    · rw [if_pos hfork, decide_eq_true hfork]
    · rw [if_neg hfork, decide_eq_false hfork]
      exact ih fun m hm => hlt m (List.mem_cons_of_mem _ hm)

/-- A hash that reads the nonce of a block, so that blocks can be numbered. -/
def numberCrypto : Crypto :=
  { sampleCrypto with
    cnFastHash := fun bs => Blob.ofNat 32 (Wire.Codec.decodeLE ((bs.drop 36).take 4)) }

def numberedBlock (number height : Nat) (prevId : Hash) : Block where
  majorVersion := 1
  minorVersion := 0
  timestamp := 0
  prevId := prevId
  nonce := UInt32.ofNat number
  minerTx := ⟨⟨1, 0, [], [.gen (UInt64.ofNat height)], [], [cpXpb], []⟩, []⟩
  txHashes := []
  signingDelegateId := 0
  dposSig := Blob.null 64

theorem blockId_numberedBlock {number : Nat} (hnumber : number < 2 ^ 32) (height : Nat)
    (prevId : Hash) :
    blockId numberCrypto (numberedBlock number height prevId) = Blob.ofNat 32 number := by
  have hheader : serializeBlockHeader (numberedBlock number height prevId).toBlockHeader =
      some ([1, 0, 0] ++ prevId.bytes ++ Wire.Codec.encodeLE 4 number) := by
    have hnonce : (UInt32.ofNat number).toNat = number := UInt32.toNat_ofNat_of_lt' hnumber
    simp only [serializeBlockHeader, numberedBlock, hnonce]
    rfl
  obtain ⟨root, hroot⟩ : ∃ root, getTxTreeHash numberCrypto (numberedBlock number height prevId) =
      some root := ⟨_, rfl⟩
  have hblob : getBlockHashingBlob numberCrypto (numberedBlock number height prevId) false =
      some ([1, 0, 0] ++ prevId.bytes ++ Wire.Codec.encodeLE 4 number ++ root.bytes ++ [1]) := by
    rw [getBlockHashingBlob, hheader, hroot]
    simp only [Option.bind_eq_bind, Option.bind_some]
    rw [show isPosBlock (numberedBlock number height prevId) = false from rfl]
    simp only [Bool.false_eq_true, if_false, List.append_nil]
    rfl
  have hlength : ([1, 0, 0] ++ prevId.bytes ++ Wire.Codec.encodeLE 4 number ++ root.bytes ++
      [1]).length = 72 := by
    simp [prevId.size_eq, root.size_eq]
  rw [blockId, getBlockHash, hblob, Option.map_some, Option.getD_some, hlength]
  -- the nonce stands after the length, three numbers and the id of the block before
  have hnonce : ((Wire.writeVarint 72 ++ ([1, 0, 0] ++ prevId.bytes ++
      Wire.Codec.encodeLE 4 number ++ root.bytes ++ [1])).drop 36).take 4 =
        Wire.Codec.encodeLE 4 number := by
    have hfront : ([72] ++ ([1, 0, 0] ++ prevId.bytes) : Wire.Bytes).length = 36 := by
      simp [prevId.size_eq]
    rw [show Wire.writeVarint 72 = [72] by decide, List.append_assoc _ root.bytes,
      List.append_assoc _ (Wire.Codec.encodeLE 4 number), ← List.append_assoc [72],
      List.drop_left' hfront, List.take_left' (Wire.Codec.encodeLE_length 4 number)]
  change Blob.ofNat 32 (Wire.Codec.decodeLE _) = _
  rw [hnonce, Wire.Codec.decodeLE_encodeLE (by omega)]

/-- The number that an id stands for. -/
def numberOf (id : Hash) : Nat := (id.bytes.getD 0 0).toNat + 256 * (id.bytes.getD 1 0).toNat

theorem numberOf_ofNat {n : Nat} (h : n < 65536) : numberOf (Blob.ofNat 32 n) = n := by
  simp [numberOf, Blob.ofNat, List.range_succ_eq_map]
  omega

/-- The numbers from 11000 on are a second branch from height 1000 on. -/
def branchBlock (n : Nat) : Block :=
  numberedBlock n (if n < 10000 then n else n - 10000)
    (Blob.ofNat 32 (if n = 11000 then 999 else n - 1))

def branchStore (id : Hash) : Option Block := some (branchBlock (numberOf id))

def branchEntries (numbers : List Nat) : List BlockCompleteEntry :=
  numbers.map fun n => ⟨branchBlock n, []⟩

theorem idsOf_branchEntries {numbers : List Nat} (h : ∀ n ∈ numbers, n < 65536) :
    idsOf numberCrypto (branchEntries numbers) = numbers.map (Blob.ofNat 32) := by
  rw [idsOf, branchEntries, List.map_map]
  refine List.map_congr_left fun n hn => ?_
  exact blockId_numberedBlock (lt_of_lt_of_le (h n hn) (by decide)) _ _

theorem chainIds_branch {numbers : List Nat}
    (h : ∀ i n, numbers[i]? = some n → n < 65536 ∧ (if n < 10000 then n else n - 10000) = i ∧
      ∀ j m, i = j + 1 → numbers[j]? = some m → m = if n = 11000 then 999 else n - 1) :
    ChainIds branchStore (numbers.map (Blob.ofNat 32)) := by
  refine ⟨numbers.map fun n => (Blob.ofNat 32 n, branchBlock n), by simp, fun i p hp => ?_⟩
  rw [List.getElem?_map] at hp
  obtain ⟨n, hn, rfl⟩ := Option.map_eq_some_iff.mp hp
  obtain ⟨hlt, hheight, hprev⟩ := h i n hn
  refine ⟨by rw [branchStore, numberOf_ofNat hlt], ?_, fun j q hj hq => ?_⟩
  · have hi : i < 65536 := by split_ifs at hheight <;> omega
    change (UInt64.ofNat (if n < 10000 then n else n - 10000)).toNat = i
    rw [hheight, UInt64.toNat_ofNat_of_lt' (lt_of_lt_of_le hi (by decide))]
  · rw [List.getElem?_map] at hq
    obtain ⟨m, hm, rfl⟩ := Option.map_eq_some_iff.mp hq
    exact congrArg (Blob.ofNat 32) (hprev j m hj hm)

/-- A thousand blocks and then those from a number on. -/
def branchNumbers (base : Nat) : List Nat :=
  List.range 1000 ++ (List.range 1034).map (base + ·)

theorem length_branchNumbers (base : Nat) : (branchNumbers base).length = 2034 := by
  simp [branchNumbers]

theorem head?_branchNumbers (base : Nat) : (branchNumbers base).head? = some 0 := by
  rw [branchNumbers, List.head?_append, List.head?_range]
  rfl

theorem getElem?_branchNumbers {base i n : Nat} (h : (branchNumbers base)[i]? = some n) :
    i < 1000 ∧ n = i ∨ 1000 ≤ i ∧ i < 2034 ∧ n = base + (i - 1000) := by
  rw [branchNumbers, List.getElem?_append, List.length_range] at h
  split_ifs at h with hi
  · rw [List.getElem?_range hi] at h
    exact Or.inl ⟨hi, (Option.some.inj h).symm⟩
  · rw [List.getElem?_map, Option.map_eq_some_iff] at h
    obtain ⟨k, hk, rfl⟩ := h
    obtain ⟨hlt, rfl⟩ : i - 1000 < 1034 ∧ i - 1000 = k := by
      obtain ⟨hlt, hget⟩ := List.getElem?_eq_some_iff.mp hk
      rw [List.length_range] at hlt
      rw [List.getElem_range] at hget
      exact ⟨hlt, hget⟩
    exact Or.inr ⟨by omega, by omega, rfl⟩

theorem chainIds_branchNumbers {base : Nat} (h : base = 1000 ∨ base = 11000) :
    ChainIds branchStore ((branchNumbers base).map (Blob.ofNat 32)) := by
  refine chainIds_branch fun i n hn => ?_
  have hi := getElem?_branchNumbers hn
  refine ⟨by omega, by split_ifs <;> omega, fun j m hj hm => ?_⟩
  have hj' := getElem?_branchNumbers hm
  split_ifs <;> omega

theorem branchNumbers_lt {base : Nat} (h : base = 1000 ∨ base = 11000) :
    ∀ n ∈ branchNumbers base, n < 65536 := by
  intro n hn
  obtain ⟨i, hi⟩ := List.mem_iff_getElem?.mp hn
  have := getElem?_branchNumbers hi
  omega

theorem forkIndex_branchNumbers : forkIndex ((branchNumbers 11000).map (Blob.ofNat 32))
    ((branchNumbers 1000).map (Blob.ofNat 32)) = 1000 := by
  have hrange : List.range 1034 = 0 :: (List.range 1033).map Nat.succ := List.range_succ_eq_map
  rw [branchNumbers, branchNumbers, List.map_append, List.map_append, forkIndex_append, hrange,
    List.length_map, List.length_range]
  simp only [List.map_cons]
  rw [forkIndex, if_neg (by decide +kernel)]

/-- The chain of the daemon. -/
def branchChain : List BlockCompleteEntry := branchEntries (branchNumbers 1000)

theorem idsOf_branchChain :
    idsOf numberCrypto branchChain = (branchNumbers 1000).map (Blob.ofNat 32) :=
  idsOf_branchEntries (branchNumbers_lt (Or.inl rfl))

theorem chainIds_branchChain : ChainIds branchStore (idsOf numberCrypto branchChain) := by
  rw [idsOf_branchChain]
  exact chainIds_branchNumbers (Or.inl rfl)

theorem length_branchChain : branchChain.length = 2034 := by
  rw [branchChain, branchEntries, List.length_map, length_branchNumbers]

theorem head?_branchChain : (idsOf numberCrypto branchChain).head? = some (Blob.ofNat 32 0) := by
  rw [idsOf_branchChain, List.head?_map, head?_branchNumbers]
  rfl

/-- The other branch as far as a wallet has it. -/
def walletBranch (length : Nat) : List Hash := ((branchNumbers 11000).map (Blob.ofNat 32)).take length

theorem chainIds_walletBranch (length : Nat) : ChainIds branchStore (walletBranch length) :=
  (chainIds_branchNumbers (Or.inr rfl)).take length

theorem head?_walletBranch {length : Nat} (h : 0 < length) :
    (walletBranch length).head? = (idsOf numberCrypto branchChain).head? := by
  rw [walletBranch, List.head?_take, if_neg h.ne', head?_branchChain, List.head?_map,
    head?_branchNumbers]
  rfl

theorem length_walletBranch {length : Nat} (h : length ≤ 2034) :
    (walletBranch length).length = length := by
  rw [walletBranch, List.length_take, List.length_map, length_branchNumbers, Nat.min_eq_left h]

theorem related_walletBranch {length : Nat} (hpos : 0 < length) (h : length ≤ 2034) :
    walletBranch length ≠ [] ∧ Related (walletBranch length) (idsOf numberCrypto branchChain) := by
  have hne : walletBranch length ≠ [] := by
    rw [← List.length_pos_iff, length_walletBranch h]
    exact hpos
  exact ⟨hne, (chainIds_walletBranch length).related chainIds_branchChain hne
    (head?_walletBranch hpos)⟩

/-- Where the blocks that the daemon sends to a wallet on the other branch begin. -/
theorem forkAnswered_walletBranch {length start : Nat} (hlong : 1000 < length) (h : length ≤ 2034)
    (hstart : (historyHeights length).find? (fun height => decide (height < 1000)) = some start) :
    ForkAnswered (walletBranch length) (idsOf numberCrypto branchChain) ↔ 1 < start := by
  have hfork : forkIndex (walletBranch length) (idsOf numberCrypto branchChain) = 1000 := by
    rw [walletBranch, idsOf_branchChain, forkIndex_take, forkIndex_branchNumbers]
    omega
  rw [ForkAnswered, (related_walletBranch (by omega) h).2.findBlockchainSupplement_eq,
    ← forkIndex_eq_length_iff, hfork, length_walletBranch h, hstart, length_idsOf,
    length_branchChain, show commandRpcGetBlocksFastMaxCount = 1000 from rfl]
  constructor
  · rintro (hext | ⟨first, hfirst, hnear⟩)
    · omega
    · obtain rfl := Option.some.inj hfirst
      omega
  · exact fun hlt => Or.inr ⟨start, rfl, Or.inl (by omega)⟩

/-- A wallet that has left the chain of the daemon three blocks ago gets all of it. -/
theorem refresh_reaches_daemon_after_shallow_fork :
    ForkAnswered (walletBranch 1003) (idsOf numberCrypto branchChain) ∧
      ∀ keys sessions (w : Wallet2), w.blockchain = walletBranch 1003 →
        (w.refresh numberCrypto keys branchChain sessions 0 0).exit = .finished →
        (w.refresh numberCrypto keys branchChain sessions 0 0).wallet.blockchain =
          idsOf numberCrypto branchChain := by
  have hstart : (historyHeights 1003).find? (fun height => decide (height < 1000)) = some 999 := by
    decide +kernel
  have hanswered := (forkAnswered_walletBranch (by decide) (by decide) hstart).mpr (by decide)
  refine ⟨hanswered, (refresh_reaches_daemon_iff chainIds_branchChain (chainIds_walletBranch 1003)
    (related_walletBranch (by decide) (by decide)).1 (head?_walletBranch (by decide)) ?_).mpr
      hanswered⟩
  rw [length_walletBranch (by decide), length_branchChain]
  decide

/-- The wallet has left the chain of the daemon a thousand blocks ago.  The history
has no block between height 1001 and the genesis block, and the thousand blocks from
there on tell the wallet nothing: it stays on its branch. -/
theorem refresh_keeps_branch_after_deep_fork :
    ∃ (chain : List BlockCompleteEntry) (c : List Hash),
      ChainIds branchStore (idsOf numberCrypto chain) ∧ ChainIds branchStore c ∧
        c.head? = (idsOf numberCrypto chain).head? ∧ c.length ≤ chain.length ∧
        ((bareWallet c).refresh numberCrypto youngKeys chain [goodSession] 0 0).exit = .finished ∧
        ((bareWallet c).refresh numberCrypto youngKeys chain [goodSession] 0 0).wallet.blockchain ≠
          idsOf numberCrypto chain := by
  have hle : (walletBranch 2034).length ≤ branchChain.length := by
    rw [length_walletBranch le_rfl, length_branchChain]
  have hzero : (historyHeights 2034).find? (fun height => decide (height < 1000)) = some 0 := by
    decide +kernel
  have hunanswered := (forkAnswered_walletBranch (by decide) le_rfl hzero).not.mpr (by decide)
  obtain ⟨hexit, hbehind⟩ :=
    refresh_left_behind (related_walletBranch (by decide) le_rfl).2 hle hunanswered
  exact ⟨branchChain, _, chainIds_branchChain, chainIds_walletBranch 2034,
    head?_walletBranch (by decide), hle, hexit, hbehind⟩

end Wallet2

end Pebblecoin
