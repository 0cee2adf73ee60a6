-- Walks through the transactions of a chain. They stand in the order of their
-- timestamps, so a program that searches after a cursor, and moves the cursor to
-- what it finds, meets each transaction behind its first cursor once.
import Pledge.Proofs.Lifecycle

namespace Pledge

def View.later (view : View) (cursor : Word) : List Tx :=
  view.txs.toList.filter fun tx => cursor < tx.timestamp

namespace Exec

/-- A walk: search after the cursor, take the timestamp of the transaction that was found as the
next cursor, and so on until nothing is found and A is zero. -/
inductive Walk (view : View) : Word → Machine → List Tx → Machine → Prop
  | ended {cursor : Word} {m m' : Machine}
      (hfind : call view .findTxAfter [cursor] m = .ok 0 m') (hnone : m'.a = zeroQuad) :
      Walk view cursor m [] m'
  | visit {cursor next : Word} {m m₁ m₂ m' : Machine} {tx : Tx} {rest : List Tx}
      (hfind : call view .findTxAfter [cursor] m = .ok 0 m₁) (hsome : m₁.a ≠ zeroQuad)
      (htx : txInA? view m₁ = some tx) (hnext : call view .txTimestamp [] m₁ = .ok next m₂)
      (hrest : Walk view next m₂ rest m') : Walk view cursor m (tx :: rest) m'

variable {view : View} {m m' m'' : Machine} {cursor : Word}

/-! ## One search -/

/-- In order, the transactions are those up to the cursor and then those after it. -/
theorem exists_split (hord : InOrder view.txs.toList) (cursor : Word) :
    ∃ before, view.txs.toList = before ++ view.later cursor ∧
      ∀ t ∈ before, ¬ cursor < t.timestamp := by
  unfold View.later
  unfold InOrder at hord
  generalize view.txs.toList = txs at hord ⊢
  induction txs with
  | nil => exact ⟨[], rfl, by simp⟩
  | cons tx txs ih =>
    rw [List.pairwise_cons] at hord
    by_cases htx : cursor < tx.timestamp
    · -- All that follow a transaction after the cursor are after it too.
      have hall : (tx :: txs).filter (fun t => cursor < t.timestamp) = tx :: txs := by
        rw [List.filter_eq_self]
        intro t ht
        rcases List.mem_cons.mp ht with rfl | ht
        · simpa using htx
        · simpa using Int64.lt_trans htx (hord.1 t ht)
      exact ⟨[], by rw [hall, List.nil_append], by simp⟩
    · obtain ⟨before, hsplit, hbefore⟩ := ih hord.2
      refine ⟨tx :: before, ?_, ?_⟩
      · rw [List.filter_cons_of_neg (by simpa using htx), List.cons_append, ← hsplit]
      · intro t ht
        rcases List.mem_cons.mp ht with rfl | ht
        · exact htx
        · exact hbefore t ht

/-- A search finds the first of the transactions after the cursor. The others are those after the
timestamp of the one that it found. -/
theorem search_cases (hord : InOrder view.txs.toList) (cursor : Word) :
    (view.later cursor = [] ∧ searchResult view cursor = zeroQuad) ∨
      ∃ n tx, view.later cursor = tx :: view.later tx.timestamp ∧
        searchResult view cursor = numbered (n + 1) ∧ view.txs[n]? = some tx := by
  obtain ⟨before, hsplit, hbefore⟩ := exists_split hord cursor
  cases hlater : view.later cursor with
  | nil =>
    refine .inl ⟨rfl, searchResult_of_none ?_⟩
    rw [hsplit, hlater, List.append_nil]
    exact hbefore
  | cons tx rest =>
    rw [hlater] at hsplit
    have htx : cursor < tx.timestamp := by
      have hmem : tx ∈ view.later cursor := by simp [hlater]
      simpa [View.later] using (List.mem_filter.mp hmem).2
    have hget : view.txs[before.length]? = some tx := by
      rw [← Array.getElem?_toList, hsplit]
      simp
    have hrest : view.later tx.timestamp = rest := by
      unfold View.later
      rw [hsplit] at hord ⊢
      have hupto := not_lt_of_inOrder hord
      rw [InOrder, List.pairwise_append, List.pairwise_cons] at hord
      have hnone : (before ++ [tx]).filter (fun t => tx.timestamp < t.timestamp) = [] := by
        rw [List.filter_eq_nil_iff]
        intro t ht
        simpa using hupto t ht
      have hall : rest.filter (fun t => tx.timestamp < t.timestamp) = rest := by
        rw [List.filter_eq_self]
        intro t ht
        simpa using hord.2.1.1 t ht
      rw [List.append_cons, List.filter_append, hnone, hall, List.nil_append]
    exact .inr ⟨before.length, tx, by rw [hrest],
      searchResult_of_later hsplit hbefore htx, hget⟩

/-! ## A whole walk -/

/-- Each step of a walk is settled by the machine and the cursor. By induction on the walk. -/
theorem Walk.unique {txs txs' : List Tx} (h : Walk view cursor m txs m')
    (h' : Walk view cursor m txs' m'') : txs = txs' ∧ m' = m'' := by
  induction h generalizing txs' m'' with
  | ended hfind hnone =>
    cases h' with
    | ended hfind' _ =>
      cases hfind.symm.trans hfind'
      exact ⟨rfl, rfl⟩
    | visit hfind' hsome' _ _ _ =>
      cases hfind.symm.trans hfind'
      exact absurd hnone hsome'
  | visit hfind hsome htx hnext _ ih =>
    cases h' with
    | ended hfind' hnone' =>
      cases hfind.symm.trans hfind'
      exact absurd hnone' hsome
    | visit hfind' _ htx' hnext' hrest' =>
      cases hfind.symm.trans hfind'
      cases htx.symm.trans htx'
      cases hnext.symm.trans hnext'
      obtain ⟨rfl, rfl⟩ := ih hrest'
      exact ⟨rfl, rfl⟩

/-- There is a walk from every cursor, through all transactions after it. By induction on them. -/
theorem walk_later (hord : InOrder view.txs.toList) (hsize : view.txs.size < 2 ^ 63)
    (cursor : Word) (m : Machine) :
    Walk view cursor m (view.later cursor) { m with a := zeroQuad } := by
  induction hlater : view.later cursor generalizing cursor m with
  | nil =>
    rcases search_cases hord cursor with ⟨_, hsearch⟩ | ⟨n, tx, hcons, _⟩
    · refine .ended ?_ rfl
      rw [call_findTxAfter, hsearch]
    · rw [hcons] at hlater
      cases hlater
  | cons tx rest ih =>
    rcases search_cases hord cursor with ⟨hnil, _⟩ | ⟨n, tx', hcons, hsearch, hget⟩
    · rw [hnil] at hlater
      cases hlater
    · rw [hcons] at hlater
      obtain ⟨rfl, hrest⟩ := List.cons.inj hlater
      have hn : n < view.txs.size := (Array.getElem?_eq_some_iff.mp hget).1
      have hfind : call view .findTxAfter [cursor] m = .ok 0 { m with a := numbered (n + 1) } := by
        rw [call_findTxAfter, hsearch]
      have htx : txInA? view { m with a := numbered (n + 1) } = some tx' :=
        txInA?_numbered (by omega) rfl hget
      have hsome : numbered (n + 1) ≠ zeroQuad := by
        simpa using numbered_ne_zero (n := n) (by omega)
      exact .visit hfind hsome htx (fromTx_eq htx) (ih tx'.timestamp _ hrest)

theorem walk_iff (hord : InOrder view.txs.toList) (hsize : view.txs.size < 2 ^ 63)
    {txs : List Tx} :
    Walk view cursor m txs m' ↔ txs = view.later cursor ∧ m' = { m with a := zeroQuad } := by
  have hwalk := walk_later hord hsize cursor m
  constructor
  · intro h
    exact h.unique hwalk
  · rintro ⟨rfl, rfl⟩
    exact hwalk

end Exec

/-! ## The transactions of a history -/

namespace Chain

variable {c c' : Chain} {bs : List Block}

/-- Blocks are received behind what was received before, by induction on them. -/
theorem txs_takeBlocks (h : c.takeBlocks bs = .ok c') :
    c'.txs.toList = c.txs.toList ++ stamps c.height bs := by
  induction bs generalizing c with
  | nil =>
    cases h
    simp [stamps]
  | cons b bs ih =>
    unfold takeBlocks at h
    split at h
    · rename_i c₁ h₁
      obtain ⟨_, balance, m, _, _, rfl⟩ := takeBlock_inv h₁
      rw [ih h]
      simp [received, stamps]
    · cases h

/-- No block that was mined is too long to be numbered. -/
theorem length_lt_of_takeBlocks (h : c.takeBlocks bs = .ok c') : ∀ b ∈ bs, b.length < 2 ^ 32 := by
  induction bs generalizing c with
  | nil => simp
  | cons b bs ih =>
    unfold takeBlocks at h
    split at h
    · rename_i c₁ h₁
      obtain ⟨_, balance, m, hr, _⟩ := takeBlock_inv h₁
      have hb := length_lt_of_receive hr (by decide)
      intro b' hb'
      rcases List.mem_cons.mp hb' with rfl | hb'
      · omega
      · exact ih h b' hb'
    · cases h

/-- Below half of all heights, what follows a deployment is in order, and can be counted. -/
theorem inOrder_deployed (tx : Tx) {height : UInt32}
    (htx : tx.timestamp = timestamp height 0) (hheight : height.toNat + bs.length < 2 ^ 31)
    (hlen : ∀ b ∈ bs, b.length < 2 ^ 32) :
    InOrder (tx :: stamps height bs) ∧ (tx :: stamps height bs).length < 2 ^ 63 := by
  constructor
  · refine .cons ?_ (inOrder_stamps hheight hlen)
    intro t ht
    have hlater := (mem_stamps hheight hlen ht).1
    rw [Int64.lt_iff_toInt_lt, htx, toInt_timestamp (by omega)]
    simp
    omega
  · have hcount := length_stamps_le height hlen
    rw [List.length_cons]
    omega

end Chain

/-! ## The law of order -/

/-- Transactions are in order, and none is lost or seen twice. Whatever is done to a chain below
half of all heights, it holds its deployment and then what was queued for the blocks that were
mined, in the order in which it was queued; the rest of what was queued still waits. Timestamps grow
from each transaction to the next. And a walk from any cursor goes through the transactions after
it, each of them once and in their order, and through no others; it leaves A zero and the rest of
the machine as it was. -/
theorem transactions_are_in_order_and_none_is_lost (container : Container) (creator : Address)
    (funding : Word) (height : UInt32) (ops : List Operation) (c : Chain)
    (h : (Chain.deploy container creator funding height).performAll ops = .ok c)
    (hheight : c.height.toNat < 2 ^ 31) :
    (∃ txs, c.txs.toList = ⟨⟨.payment, creator, funding⟩, timestamp height 0⟩ :: txs ∧
      txs.map Tx.toTransfer = mined ops) ∧
    mined ops ++ c.pending.toList = transfers ops ∧
    InOrder c.txs.toList ∧
    ∀ view : View, view.txs = c.txs →
      ∀ (cursor : Word) (m : Machine) (txs : List Tx) (m' : Machine),
      Exec.Walk view cursor m txs m' ↔
        txs = c.txs.toList.filter (fun tx => cursor < tx.timestamp) ∧
          m' = { m with a := Exec.zeroQuad } := by
  obtain ⟨c₁, hblocks, rfl⟩ := (Chain.performAll_eq_ok rfl).mp h
  have hlast : c₁.height.toNat = height.toNat + (blocks ops).length :=
    Chain.height_takeBlocks hblocks
  have hlow : height.toNat + (blocks ops).length < 2 ^ 31 := hlast ▸ hheight
  have htxs : c₁.txs.toList = ⟨⟨.payment, creator, funding⟩, timestamp height 0⟩ ::
      Chain.stamps height (blocks ops) := Chain.txs_takeBlocks hblocks
  obtain ⟨hord, hsize⟩ :=
    Chain.inOrder_deployed ⟨⟨.payment, creator, funding⟩, timestamp height 0⟩ rfl hlow
      (Chain.length_lt_of_takeBlocks hblocks)
  rw [← htxs] at hord hsize
  refine ⟨⟨_, htxs, Chain.map_toTransfer_stamps height (blocks ops)⟩, ?_, hord, ?_⟩
  · simpa [Chain.withPending] using mined_append ops
  · intro view hview cursor m txs m'
    have hsame : view.txs = c₁.txs := hview
    rw [← hsame] at hord hsize
    rw [Exec.walk_iff hord (by simpa using hsize), View.later, hsame]
    exact Iff.rfl

/-- Two blocks at the last of these heights. A walk that starts at the first transaction of the
first block meets the second one of it and the one of the next block. What waits is not met. -/
theorem transactions_are_in_order_and_none_is_lost_in_two_blocks :
    ∃ c, (Chain.deploy ⟨⟨2, 0, 1, 0, 0, 0, 0⟩, [0x28], []⟩ ⟨.account, .replicate 20 1⟩ 5
        0x7ffffffd).performAll
        [.pay ⟨.account, .replicate 20 2⟩ 3, .message ⟨.account, .replicate 20 3⟩ 0, .mine,
          .pay ⟨.account, .replicate 20 2⟩ 4, .mine, .pay ⟨.account, .replicate 20 3⟩ 1] =
        .ok c ∧
      c.height.toNat < 2 ^ 31 ∧
      ∀ m, Exec.Walk c.view (timestamp 0x7ffffffe 1) m
        [⟨⟨.message, ⟨.account, .replicate 20 3⟩, 0⟩, timestamp 0x7ffffffe 2⟩,
          ⟨⟨.payment, ⟨.account, .replicate 20 2⟩, 4⟩, timestamp 0x7fffffff 1⟩]
        { m with a := Exec.zeroQuad } := by
  have hlaw := transactions_are_in_order_and_none_is_lost
    ⟨⟨2, 0, 1, 0, 0, 0, 0⟩, [0x28], []⟩ ⟨.account, .replicate 20 1⟩ 5 0x7ffffffd
    [.pay ⟨.account, .replicate 20 2⟩ 3, .message ⟨.account, .replicate 20 3⟩ 0, .mine,
      .pay ⟨.account, .replicate 20 2⟩ 4, .mine, .pay ⟨.account, .replicate 20 3⟩ 1] _ rfl
    (by decide)
  refine ⟨_, rfl, by decide, ?_⟩
  intro m
  exact (hlaw.2.2.2 _ rfl _ m _ _).mpr ⟨by decide, rfl⟩

end Pledge
