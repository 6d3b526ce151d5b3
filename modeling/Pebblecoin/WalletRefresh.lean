import Pebblecoin.Containers.CommonPrefix
import Pebblecoin.WalletScan

/-!
How a wallet asks its daemon for blocks, and what one attempt does to its chain.
-/

namespace Pebblecoin

open Containers

variable {entries : List BlockCompleteEntry} {i j added index : Nat} {x : Hash}

def commandRpcGetBlocksFastMaxCount : Nat := 1000

/-- The height of the first block of the history that is on the main chain. -/
def findBlockchainSupplement (chain qblockIds : List Hash) : Option Nat :=
  if qblockIds.isEmpty then none
  else if qblockIds.getLast? ≠ chain.head? then none
  else qblockIds.findSome? fun id => chain.idxOf? id

namespace Wallet2

section Refresh

variable (crypto : Crypto) (keys : AccountKeys)

/-- The ids of the blocks of a chain. -/
def idsOf (chain : List BlockCompleteEntry) : List Hash :=
  chain.map fun entry => blockId crypto entry.block

/-- What one call of `pullBlocks` leaves behind, also when it throws. -/
structure PullResult where
  error : Option WalletError
  blocksAdded : Nat
  wallet : Wallet2

def pullEntries (session : Session) (startHeight : Nat) :
    List BlockCompleteEntry → (currentIndex blocksAdded : Nat) → Wallet2 → PullResult
  | [], _, added, w => ⟨none, added, w⟩
  | entry :: entries, index, added, w =>
    let blId := blockId crypto entry.block
    match w.blockchain[index]? with
    | none =>
      match w.processNewBlockchainEntry crypto keys session entry blId index with
      | (some e, w) => ⟨some e, added, w⟩
      | (none, w) => pullEntries session startHeight entries (index + 1) (added + 1) w
    | some id =>
      if blId ≠ id then
        if index = startHeight then ⟨some .splitStartsFromFirstBlock, added, w⟩
        else
          match w.detachBlockchain index with
          | (some e, w) => ⟨some e, added, w⟩
          | (none, w) =>
            match w.processNewBlockchainEntry crypto keys session entry blId index with
            | (some e, w) => ⟨some e, added, w⟩
            -- the block at the split is not counted
            | (none, w) => pullEntries session startHeight entries (index + 1) added w
      else pullEntries session startHeight entries (index + 1) added w

/-- Ask the daemon for the blocks after the history and take them over. -/
def pullBlocks (chain : List BlockCompleteEntry) (session : Session) (w : Wallet2) : PullResult :=
  if !session.connected then ⟨some .noConnectionToDaemon, 0, w⟩
  else
    match findBlockchainSupplement (idsOf crypto chain) (getShortChainHistory w.blockchain) with
    | none => ⟨some .getBlocksError, 0, w⟩
    | some start =>
      if w.blockchain.length ≤ start then ⟨some .wrongStartHeight, 0, w⟩
      else
        pullEntries crypto keys session start
          ((chain.drop start).take commandRpcGetBlocksFastMaxCount) start 0 w

inductive RefreshExit where
  | finished
  | failed (error : WalletError)
  /-- The sessions have run out before the loop ends. -/
  | pending
deriving DecidableEq, Repr

structure RefreshResult where
  exit : RefreshExit
  blocksFetched : Nat
  wallet : Wallet2

/-- The pull loop: it ends after an attempt that adds no block, and gives up at
the fourth exception. -/
def refresh (chain : List BlockCompleteEntry) :
    List Session → (tryCount blocksFetched : Nat) → Wallet2 → RefreshResult
  | [], _, fetched, w => ⟨.pending, fetched, w⟩
  | session :: sessions, tryCount, fetched, w =>
    let r := w.pullBlocks crypto keys chain session
    match r.error with
    | none =>
      if r.blocksAdded = 0 then ⟨.finished, fetched + r.blocksAdded, r.wallet⟩
      else refresh chain sessions tryCount (fetched + r.blocksAdded) r.wallet
    | some e =>
      if tryCount < 3 then
        refresh chain sessions (tryCount + 1) (fetched + r.blocksAdded) r.wallet
      else ⟨.failed e, fetched + r.blocksAdded, r.wallet⟩

end Refresh

section Pull

variable {crypto : Crypto} {keys : AccountKeys} {session : Session} {start : Nat}

/-- The chain after some of the entries; all of them have been added and counted if nothing
was thrown. -/
structure PulledOver (crypto : Crypto) (c : List Hash) (entries : List BlockCompleteEntry)
    (counted : Nat) (r : PullResult) : Prop where
  some_added : ∃ k, r.wallet.blockchain = c ++ (idsOf crypto entries).take k
  all_added : r.error = none →
    r.wallet.blockchain = c ++ idsOf crypto entries ∧ r.blocksAdded = counted

theorem PulledOver.cons {c : List Hash} {entry : BlockCompleteEntry} {counted : Nat}
    {r : PullResult} (h : PulledOver crypto (c ++ [blockId crypto entry.block]) entries counted r) :
    PulledOver crypto c (entry :: entries) counted r := by
  refine ⟨?_, fun herror => ?_⟩
  · obtain ⟨k, hk⟩ := h.some_added
    refine ⟨k + 1, ?_⟩
    rw [hk]
    simp [idsOf]
  · obtain ⟨hchain, hadded⟩ := h.all_added herror
    rw [hchain]
    exact ⟨by simp [idsOf], hadded⟩

theorem pullEntries_new {w : Wallet2} (hindex : index = w.blockchain.length) :
    PulledOver crypto w.blockchain entries (added + entries.length)
      (pullEntries crypto keys session start entries index added w) := by
  induction entries generalizing index added w with
  | nil => exact ⟨⟨0, by simp [pullEntries]⟩, fun _ => by simp [pullEntries, idsOf]⟩
  | cons entry entries ih =>
    have hnone : w.blockchain[index]? = none := List.getElem?_eq_none (by omega)
    simp only [pullEntries, hnone]
    cases hprocess : w.processNewBlockchainEntry crypto keys session entry
        (blockId crypto entry.block) index with
    | mk e w' =>
      have hchain := processNewBlockchainEntry_blockchain hindex hprocess
      cases e with
      | none =>
        have hchain' : w'.blockchain = w.blockchain ++ [blockId crypto entry.block] := by
          simpa using hchain
        refine PulledOver.cons ?_
        rw [← hchain', List.length_cons, show added + (entries.length + 1) =
          added + 1 + entries.length by omega]
        exact ih (by rw [hchain', List.length_append, hindex]; rfl)
      | some e =>
        refine ⟨?_, fun herror => by cases herror⟩
        rcases hchain with hchain | ⟨hchain, -⟩
        · exact ⟨1, by simp [hchain, idsOf]⟩
        · exact ⟨0, by simp [hchain]⟩

theorem pullEntries_known {known : List BlockCompleteEntry} {w : Wallet2}
    (h : idsOf crypto known <+: w.blockchain.drop index) :
    pullEntries crypto keys session start (known ++ entries) index added w =
      pullEntries crypto keys session start entries (index + known.length) added w := by
  induction known generalizing index with
  | nil => rfl
  | cons entry known ih =>
    obtain ⟨rest, hrest⟩ := h
    rw [idsOf, List.map_cons, List.cons_append] at hrest
    have hindex : w.blockchain[index]? = some (blockId crypto entry.block) := by
      rw [← Nat.add_zero index, ← List.getElem?_drop, ← hrest]
      rfl
    have hknown : idsOf crypto known <+: w.blockchain.drop (index + 1) :=
      ⟨rest, by rw [← List.tail_drop, ← hrest]; rfl⟩
    rw [List.cons_append, pullEntries]
    simp only [hindex, ne_eq, not_true_eq_false, if_false]
    rw [ih hknown, List.length_cons]
    congr 1
    omega

theorem pullEntries_split {entry : BlockCompleteEntry} {w : Wallet2}
    (hindex : index < w.blockchain.length)
    (hsplit : w.blockchain[index]? ≠ some (blockId crypto entry.block)) (hstart : index ≠ start) :
    PulledOver crypto (w.blockchain.take index) (entry :: entries) (added + entries.length)
        (pullEntries crypto keys session start (entry :: entries) index added w) ∨
      (pullEntries crypto keys session start (entry :: entries) index added w).error ≠ none ∧
        (pullEntries crypto keys session start (entry :: entries) index added w).wallet.blockchain =
          w.blockchain := by
  obtain ⟨id, hid⟩ : ∃ id, w.blockchain[index]? = some id :=
    ⟨_, List.getElem?_eq_getElem hindex⟩
  have hne : blockId crypto entry.block ≠ id := by
    rintro rfl
    exact hsplit hid
  simp only [pullEntries, hid, if_pos hne, if_neg hstart]
  cases hdetach : w.detachBlockchain index with
  | mk e w₁ =>
    rcases detachBlockchain_blockchain hdetach with ⟨rfl, hchain₁⟩ | ⟨hthrown, hchain₁⟩
    · left
      dsimp only
      have hlength : index = w₁.blockchain.length := by
        rw [hchain₁, List.length_take]
        omega
      cases hprocess : w₁.processNewBlockchainEntry crypto keys session entry
          (blockId crypto entry.block) index with
      | mk e w₂ =>
        have hchain := processNewBlockchainEntry_blockchain hlength hprocess
        rw [hchain₁] at hchain
        cases e with
        | none =>
          have hchain₂ : w₂.blockchain =
              w.blockchain.take index ++ [blockId crypto entry.block] := by
            simpa using hchain
          refine PulledOver.cons ?_
          rw [← hchain₂]
          exact pullEntries_new (by rw [hchain₂, ← hchain₁, List.length_append, hlength]; rfl)
        | some e =>
          refine ⟨?_, fun herror => by cases herror⟩
          rcases hchain with hchain | ⟨hchain, -⟩
          · exact ⟨1, by simp [hchain, idsOf]⟩
          · exact ⟨0, by simp [hchain]⟩
    · right
      cases e with
      | none => exact (hthrown rfl).elim
      | some e => exact ⟨by simp, hchain₁⟩

end Pull

section History

variable {c d : List Hash}

theorem getD_mem {n : Nat} (h : n < c.length) : c.getD n nullHash ∈ c := by
  rw [List.getD_eq_getElem?_getD, List.getElem?_eq_getElem h]
  exact List.getElem_mem h

theorem mem_of_mem_shortChainHistoryLoop {fuel multiplier backOffset : Nat} {id : Hash}
    (hoffset : 1 ≤ backOffset) (h : id ∈ shortChainHistoryLoop c fuel i multiplier backOffset) :
    id ∈ c := by
  induction fuel generalizing i multiplier backOffset with
  | zero => cases h
  | succ fuel ih =>
    rw [shortChainHistoryLoop] at h
    split_ifs at h with hlt hfirst
    · rcases List.mem_cons.mp h with rfl | h
      · exact getD_mem (by omega)
      · exact ih (by omega) h
    · rcases List.mem_cons.mp h with rfl | h
      · exact getD_mem (by omega)
      · exact ih (by omega) h
    · cases h

theorem mem_of_mem_getShortChainHistory {id : Hash} (h : id ∈ getShortChainHistory c) :
    id ∈ c := by
  cases c with
  | nil => cases h
  | cons a c =>
    rcases List.mem_append.mp h with h | h
    · exact mem_of_mem_shortChainHistoryLoop le_rfl h
    · rw [List.mem_singleton.mp h]
      exact List.mem_cons_self

theorem getLast?_getShortChainHistory : (getShortChainHistory c).getLast? = c.head? := by
  cases c with
  | nil => rfl
  | cons a c =>
    rw [getShortChainHistory, if_neg (by simp), List.getLast?_concat]
    rfl

theorem head?_getShortChainHistory : (getShortChainHistory c).head? = c.getLast? := by
  rcases c with _ | ⟨a, _ | ⟨b, c⟩⟩
  · rfl
  · rfl
  · rw [List.getLast?_eq_getElem?]
    simp [getShortChainHistory, shortChainHistoryLoop]

/-- A block of both chains has the same blocks below it in both. -/
structure Related (c d : List Hash) : Prop where
  head : c.head? = d.head?
  nonempty : c ≠ []
  agree : ∀ i j x, (c)[i]? = some x → d[j]? = some x → c.take (i + 1) = d.take (j + 1)

theorem Related.height_eq (h : Related c d) (hi : (c)[i]? = some x) (hj : d[j]? = some x) :
    i = j := by
  have hlength := congrArg List.length (h.agree i j x hi hj)
  have hic := (List.getElem?_eq_some_iff.mp hi).1
  have hjd := (List.getElem?_eq_some_iff.mp hj).1
  simp only [List.length_take] at hlength
  omega

theorem Related.lt_forkIndex (h : Related c d) (hi : (c)[i]? = some x) (hj : d[j]? = some x) :
    j < forkIndex c d := by
  obtain rfl := h.height_eq hi hj
  exact le_forkIndex (List.getElem?_eq_some_iff.mp hi).1 (h.agree i i x hi hj)

theorem getElem?_of_idxOf? (h : d.idxOf? x = some j) : d[j]? = some x := by
  obtain ⟨hj, hx, -⟩ := List.idxOf?_eq_some_iff.mp h
  rw [List.getElem?_eq_getElem hj, hx]

theorem Related.findBlockchainSupplement (h : Related c d) :
    ∃ start, Pebblecoin.findBlockchainSupplement d (getShortChainHistory c) = some start ∧
      start < forkIndex c d := by
  obtain ⟨a, c', rfl⟩ := List.exists_cons_of_ne_nil h.nonempty
  have hlast := getLast?_getShortChainHistory (c := a :: c')
  have hmem : a ∈ getShortChainHistory (a :: c') := List.mem_of_getLast? hlast
  have hfound : ((getShortChainHistory (a :: c')).findSome? fun id => d.idxOf? id).isSome = true := by
    refine List.findSome?_isSome_iff.mpr ⟨a, hmem, List.isSome_idxOf?.mpr ?_⟩
    exact List.mem_of_head? h.head.symm
  obtain ⟨start, hstart⟩ := Option.isSome_iff_exists.mp hfound
  refine ⟨start, ?_, ?_⟩
  · have hne : (getShortChainHistory (a :: c')).isEmpty = false :=
      List.isEmpty_eq_false_iff.mpr (List.ne_nil_of_mem hmem)
    rw [Pebblecoin.findBlockchainSupplement, hne, if_neg (by simp),
      if_neg (by rw [hlast, h.head]; simp), hstart]
  · obtain ⟨x, hx, hidx⟩ := List.exists_of_findSome?_eq_some hstart
    obtain ⟨i, hi⟩ := List.mem_iff_getElem?.mp (mem_of_mem_getShortChainHistory hx)
    exact h.lt_forkIndex hi (getElem?_of_idxOf? hidx)

theorem Related.findBlockchainSupplement_of_prefix (h : Related c d) (hc : c <+: d) :
    Pebblecoin.findBlockchainSupplement d (getShortChainHistory c) = some (c.length - 1) := by
  obtain ⟨start, hstart, -⟩ := h.findBlockchainSupplement
  have hpos := List.length_pos_iff.mpr h.nonempty
  rw [hstart]
  rw [Pebblecoin.findBlockchainSupplement] at hstart
  split_ifs at hstart
  have hhead := head?_getShortChainHistory (c := c)
  rw [List.getLast?_eq_getElem?, List.getElem?_eq_getElem (by omega)] at hhead
  obtain ⟨rest, hrest⟩ := List.head?_eq_some_iff.mp hhead
  have hlast : d[c.length - 1]? = some (c)[c.length - 1] := by
    obtain ⟨tail, rfl⟩ := hc
    rw [List.getElem?_append_left (by omega), List.getElem?_eq_getElem (by omega)]
  obtain ⟨j, hj⟩ := Option.isSome_iff_exists.mp
    (List.isSome_idxOf?.mpr (List.mem_of_getElem? hlast))
  rw [hrest, List.findSome?_cons, hj] at hstart
  rw [← hstart, ← h.height_eq (List.getElem?_eq_getElem (by omega)) (getElem?_of_idxOf? hj)]

end History

section Attempt

variable {crypto : Crypto} {keys : AccountKeys} {session : Session}
  {chain : List BlockCompleteEntry} {w : Wallet2} {start : Nat}

theorem idsOf_drop (n : Nat) : idsOf crypto (chain.drop n) = (idsOf crypto chain).drop n :=
  List.map_drop ..

theorem idsOf_take (n : Nat) : idsOf crypto (chain.take n) = (idsOf crypto chain).take n :=
  List.map_take ..

@[simp] theorem length_idsOf : (idsOf crypto chain).length = chain.length := List.length_map ..

theorem pullEntries_to_fork {count : Nat} (hstart : start < forkIndex w.blockchain (idsOf crypto chain)) :
    pullEntries crypto keys session start ((chain.drop start).take count) start 0 w =
      pullEntries crypto keys session start
        (((chain.drop start).take count).drop (forkIndex w.blockchain (idsOf crypto chain) - start))
        (start + min (forkIndex w.blockchain (idsOf crypto chain) - start) count) 0 w := by
  have hle := forkIndex_le_right w.blockchain (idsOf crypto chain)
  have htake := take_forkIndex w.blockchain (idsOf crypto chain)
  rw [length_idsOf] at hle
  generalize forkIndex w.blockchain (idsOf crypto chain) = f at hstart hle htake ⊢
  have hknown : idsOf crypto (((chain.drop start).take count).take (f - start)) <+:
      w.blockchain.drop start := by
    have hbelow : (idsOf crypto (chain.drop start)).take (f - start) <+: w.blockchain.drop start := by
      rw [idsOf_drop, ← List.drop_take, ← htake, List.drop_take]
      exact List.take_prefix _ _
    rw [List.take_take, Nat.min_comm, ← List.take_take, idsOf_take, idsOf_take]
    exact (List.take_prefix _ _).trans hbelow
  have hlength : (((chain.drop start).take count).take (f - start)).length =
      min (f - start) count := by
    simp only [List.length_take, List.length_drop]
    omega
  conv_lhs => rw [← List.take_append_drop (f - start) ((chain.drop start).take count)]
  rw [pullEntries_known hknown, hlength]

variable (keys) in
theorem pullBlocks_far (hconnected : session.connected = true)
    (hstart : findBlockchainSupplement (idsOf crypto chain)
      (getShortChainHistory w.blockchain) = some start)
    (hbelow : start < forkIndex w.blockchain (idsOf crypto chain))
    (hfar : start + commandRpcGetBlocksFastMaxCount ≤ forkIndex w.blockchain (idsOf crypto chain)) :
    w.pullBlocks crypto keys chain session = ⟨none, 0, w⟩ := by
  have hle := forkIndex_le_left w.blockchain (idsOf crypto chain)
  rw [pullBlocks, hconnected]
  simp only [Bool.not_true, Bool.false_eq_true, if_false, hstart]
  rw [if_neg (by omega), pullEntries_to_fork hbelow, List.drop_eq_nil_of_le]
  · rfl
  · rw [List.length_take]
    omega

variable (keys) in
theorem pullBlocks_eq_pullEntries (hconnected : session.connected = true)
    (hstart : findBlockchainSupplement (idsOf crypto chain)
      (getShortChainHistory w.blockchain) = some start)
    (hbelow : start < forkIndex w.blockchain (idsOf crypto chain))
    (hnear : forkIndex w.blockchain (idsOf crypto chain) < start + commandRpcGetBlocksFastMaxCount) :
    w.pullBlocks crypto keys chain session = pullEntries crypto keys session start
      ((chain.take (start + commandRpcGetBlocksFastMaxCount)).drop
        (forkIndex w.blockchain (idsOf crypto chain)))
      (forkIndex w.blockchain (idsOf crypto chain)) 0 w := by
  have hle := forkIndex_le_left w.blockchain (idsOf crypto chain)
  rw [pullBlocks, hconnected]
  simp only [Bool.not_true, Bool.false_eq_true, if_false, hstart]
  rw [if_neg (by omega), pullEntries_to_fork hbelow, List.take_drop, List.drop_drop]
  congr 1
  · congr 1
    omega
  · omega

variable (keys) in
/-- The answer reaches the fork: the chain of the daemon is taken over from there
on, and the block at the fork is not counted if it takes the place of another. -/
theorem pullBlocks_near (hconnected : session.connected = true)
    (hstart : findBlockchainSupplement (idsOf crypto chain)
      (getShortChainHistory w.blockchain) = some start)
    (hbelow : start < forkIndex w.blockchain (idsOf crypto chain))
    (hnear : forkIndex w.blockchain (idsOf crypto chain) < start + commandRpcGetBlocksFastMaxCount)
    (hbeyond : ¬ w.blockchain <+: idsOf crypto chain →
      forkIndex w.blockchain (idsOf crypto chain) < chain.length) :
    PulledOver crypto (w.blockchain.take (forkIndex w.blockchain (idsOf crypto chain)))
        ((chain.take (start + commandRpcGetBlocksFastMaxCount)).drop
          (forkIndex w.blockchain (idsOf crypto chain)))
        ((chain.take (start + commandRpcGetBlocksFastMaxCount)).length -
          min w.blockchain.length (forkIndex w.blockchain (idsOf crypto chain) + 1))
        (w.pullBlocks crypto keys chain session) ∨
      (w.pullBlocks crypto keys chain session).error ≠ none ∧
        (w.pullBlocks crypto keys chain session).wallet.blockchain = w.blockchain := by
  have hle := forkIndex_le_left w.blockchain (idsOf crypto chain)
  rw [pullBlocks_eq_pullEntries keys hconnected hstart hbelow hnear]
  have hright := forkIndex_le_right w.blockchain (idsOf crypto chain)
  have hne : forkIndex w.blockchain (idsOf crypto chain) < w.blockchain.length →
      w.blockchain[forkIndex w.blockchain (idsOf crypto chain)]? ≠
        (idsOf crypto chain)[forkIndex w.blockchain (idsOf crypto chain)]? := getElem?_forkIndex_ne
  rw [length_idsOf] at hright
  rw [← forkIndex_eq_length_iff] at hbeyond
  generalize forkIndex w.blockchain (idsOf crypto chain) = f at hbelow hnear hle hright hne hbeyond ⊢
  have hpage : f ≤ (chain.take (start + commandRpcGetBlocksFastMaxCount)).length := by
    rw [List.length_take]
    omega
  rcases Nat.lt_or_ge f w.blockchain.length with hfork | hbehind
  · have hpage' : f < (chain.take (start + commandRpcGetBlocksFastMaxCount)).length := by
      rw [List.length_take]
      omega
    rw [List.drop_eq_getElem_cons hpage']
    have hentry : (idsOf crypto chain)[f]? = some (blockId crypto
        (chain.take (start + commandRpcGetBlocksFastMaxCount))[f].block) := by
      rw [idsOf, List.getElem?_map, List.getElem?_eq_getElem (by omega), List.getElem_take]
      rfl
    rw [hentry] at hne
    have hcount : (chain.take (start + commandRpcGetBlocksFastMaxCount)).length -
        min w.blockchain.length (f + 1) =
          0 + ((chain.take (start + commandRpcGetBlocksFastMaxCount)).drop (f + 1)).length := by
      rw [List.length_drop]
      omega
    rw [hcount]
    exact pullEntries_split hfork (hne hfork) (by omega)
  · left
    have hcount : (chain.take (start + commandRpcGetBlocksFastMaxCount)).length -
        min w.blockchain.length (f + 1) =
          0 + ((chain.take (start + commandRpcGetBlocksFastMaxCount)).drop f).length := by
      rw [List.length_drop]
      omega
    rw [hcount, List.take_of_length_le hbehind]
    exact pullEntries_new (by omega)

theorem PulledOver.of_page {c : List Hash} {f n counted : Nat} {r : PullResult}
    (hc : c = (idsOf crypto chain).take f) (hn : f ≤ n)
    (h : PulledOver crypto c ((chain.take n).drop f) counted r) :
    (∃ m, f ≤ m ∧ r.wallet.blockchain = (idsOf crypto chain).take m) ∧
      (r.error = none → r.wallet.blockchain = (idsOf crypto chain).take n ∧
        r.blocksAdded = counted) := by
  have hbelow : (idsOf crypto chain).take f = ((idsOf crypto chain).take n).take f := by
    rw [List.take_take, Nat.min_eq_left hn]
  rw [hc, hbelow] at h
  refine ⟨?_, fun herror => ?_⟩
  · obtain ⟨k, hk⟩ := h.some_added
    refine ⟨min (f + k) n, by omega, ?_⟩
    rw [hk, idsOf_drop, idsOf_take, ← List.take_add, List.take_take]
  · obtain ⟨hall, hcount⟩ := h.all_added herror
    refine ⟨?_, hcount⟩
    rw [hall, idsOf_drop, idsOf_take, List.take_append_drop]

end Attempt

end Wallet2

end Pebblecoin
