-- The order of the transactions: their timestamps grow from one to the next,
-- so a search that starts at one finds the next.
import Pledge.Machine.Call
import Pledge.Proofs.History

namespace Pledge

/-- The transactions stand in the order of their timestamps. -/
def InOrder (txs : List Tx) : Prop := txs.Pairwise fun s t => s.timestamp < t.timestamp

namespace Chain

/-! ## The transactions of blocks -/

/-- The transactions that blocks make of their transfers, after the block of a height. -/
def stamps (height : UInt32) : List Block → List Tx
  | [] => []
  | b :: bs => stamp (height + 1) 0 b ++ stamps (height + 1) bs

theorem map_toTransfer_stamp (height : UInt32) (index : Nat) (ts : List Transfer) :
    (stamp height index ts).map Tx.toTransfer = ts := by
  induction ts generalizing index with
  | nil => rfl
  | cons t ts ih =>
    unfold stamp
    rw [List.map_cons, ih]

theorem map_toTransfer_stamps (height : UInt32) (bs : List Block) :
    (stamps height bs).map Tx.toTransfer = bs.flatten := by
  induction bs generalizing height with
  | nil => rfl
  | cons b bs ih =>
    unfold stamps
    rw [List.map_append, map_toTransfer_stamp, ih, List.flatten_cons]

theorem add_ofNat_succ (height : UInt32) (n : Nat) :
    height + 1 + UInt32.ofNat n = height + UInt32.ofNat (n + 1) := by
  rw [UInt32.ofNat_add, UInt32.add_assoc, UInt32.add_comm 1]
  rfl

/-- The timestamps of a block lie between its height and the next. -/
theorem mem_stamp {height : UInt32} {index : Nat} {ts : List Transfer} {t : Tx}
    (hheight : height.toNat < 2 ^ 31) (hlen : index + ts.length < 2 ^ 32)
    (h : t ∈ stamp height index ts) :
    (height.toNat * 2 ^ 32 + index : Int) < t.timestamp.toInt ∧
      t.timestamp.toInt < (height.toNat + 1) * 2 ^ 32 := by
  induction ts generalizing index with
  | nil => cases h
  | cons t' ts ih =>
    rw [List.length_cons] at hlen
    unfold stamp at h
    rcases List.mem_cons.mp h with rfl | h
    · rw [toInt_timestamp hheight, UInt32.toNat_ofNat_of_lt' (show _ < 2 ^ 32 by omega)]
      omega
    · have := ih (by omega) h
      omega

theorem inOrder_stamp {height : UInt32} {index : Nat} {ts : List Transfer}
    (hheight : height.toNat < 2 ^ 31) (hlen : index + ts.length < 2 ^ 32) :
    InOrder (stamp height index ts) := by
  induction ts generalizing index with
  | nil => exact .nil
  | cons t ts ih =>
    rw [List.length_cons] at hlen
    refine .cons ?_ (ih (by omega))
    intro t' ht'
    have hlater := (mem_stamp hheight (by omega) ht').1
    rw [Int64.lt_iff_toInt_lt, toInt_timestamp hheight,
      UInt32.toNat_ofNat_of_lt' (show _ < 2 ^ 32 by omega)]
    omega

theorem toNat_succ {height : UInt32} (h : height.toNat + 1 < 2 ^ 32) :
    (height + 1).toNat = height.toNat + 1 := by
  rw [UInt32.toNat_add]
  simp
  omega

theorem mem_stamps {height : UInt32} {bs : List Block} {t : Tx}
    (hheight : height.toNat + bs.length < 2 ^ 31) (hlen : ∀ b ∈ bs, b.length < 2 ^ 32)
    (h : t ∈ stamps height bs) :
    ((height.toNat + 1) * 2 ^ 32 : Int) < t.timestamp.toInt ∧
      t.timestamp.toInt < (height.toNat + bs.length + 1) * 2 ^ 32 := by
  induction bs generalizing height with
  | nil => cases h
  | cons b bs ih =>
    rw [List.length_cons] at hheight ⊢
    have hsucc : (height + 1).toNat = height.toNat + 1 := toNat_succ (by omega)
    unfold stamps at h
    rcases List.mem_append.mp h with h | h
    · have := mem_stamp (by omega) (by simpa using hlen b (by simp)) h
      omega
    · have := ih (by omega) (fun b hb => hlen b (by simp [hb])) h
      omega

/-- The transactions of blocks are in order. -/
theorem inOrder_stamps {height : UInt32} {bs : List Block}
    (hheight : height.toNat + bs.length < 2 ^ 31) (hlen : ∀ b ∈ bs, b.length < 2 ^ 32) :
    InOrder (stamps height bs) := by
  induction bs generalizing height with
  | nil => exact .nil
  | cons b bs ih =>
    rw [List.length_cons] at hheight
    have hsucc : (height + 1).toNat = height.toNat + 1 := toNat_succ (by omega)
    have hb : 0 + b.length < 2 ^ 32 := by simpa using hlen b (by simp)
    have hbs : ∀ b ∈ bs, b.length < 2 ^ 32 := fun b h => hlen b (by simp [h])
    refine List.pairwise_append.mpr ⟨inOrder_stamp (by omega) hb, ih (by omega) hbs, ?_⟩
    intro s hs t ht
    have hsmall := (mem_stamp (by omega) hb hs).2
    have hlarge := (mem_stamps (by omega) hbs ht).1
    rw [Int64.lt_iff_toInt_lt]
    omega

theorem length_stamp (height : UInt32) (index : Nat) (ts : List Transfer) :
    (stamp height index ts).length = ts.length := by
  rw [← List.length_map Tx.toTransfer, map_toTransfer_stamp]

theorem length_stamps_le (height : UInt32) {bs : List Block}
    (hlen : ∀ b ∈ bs, b.length < 2 ^ 32) : (stamps height bs).length ≤ bs.length * 2 ^ 32 := by
  induction bs generalizing height with
  | nil => simp [stamps]
  | cons b bs ih =>
    have hb := hlen b (by simp)
    have hbs := ih (height + 1) fun b h => hlen b (by simp [h])
    simp only [stamps, List.length_append, List.length_cons, length_stamp]
    omega

end Chain

/-! ## Search -/

namespace Exec

variable {view : View} {m : Machine} {before after : List Tx} {last tx : Tx}

/-- What register A holds when it names a transaction. -/
def numbered (n : Nat) : Quad := #v[Int64.ofNat n, 0, 0, 0]

theorem call_findTxAfter (after : Word) :
    call view .findTxAfter [after] m = .ok 0 { m with a := searchResult view after } := rfl

/-- A search looks at the transactions in their order. -/
theorem findIdx?_txs (p : Tx → Bool) : view.txs.findIdx? p = view.txs.toList.findIdx? p := by
  rw [← List.findIdx?_toArray, Array.toArray_toList]

/-- A search finds the first transaction after the cursor. -/
theorem searchResult_of_later {cursor : Word} (htxs : view.txs.toList = before ++ tx :: after)
    (hbefore : ∀ t ∈ before, ¬ cursor < t.timestamp) (htx : cursor < tx.timestamp) :
    searchResult view cursor = numbered (before.length + 1) := by
  have hnone : before.findIdx? (fun t => cursor < t.timestamp) = none := by
    rw [List.findIdx?_eq_none_iff]
    intro t ht
    simp [hbefore t ht]
  have hfound : view.txs.findIdx? (fun t => cursor < t.timestamp) = some before.length := by
    rw [findIdx?_txs, htxs, List.findIdx?_append, hnone]
    simp [List.findIdx?_cons, htx]
  rw [searchResult, hfound]
  rfl

/-- A search finds nothing where no transaction comes after the cursor. -/
theorem searchResult_of_none {cursor : Word}
    (h : ∀ t ∈ view.txs.toList, ¬ cursor < t.timestamp) : searchResult view cursor = zeroQuad := by
  have hnone : view.txs.findIdx? (fun t => cursor < t.timestamp) = none := by
    rw [findIdx?_txs, List.findIdx?_eq_none_iff]
    intro t ht
    simp [h t ht]
  rw [searchResult, hnone]

/-- Nothing up to a transaction comes after it. -/
theorem not_lt_of_inOrder (hord : InOrder (before ++ last :: after)) :
    ∀ t ∈ before ++ [last], ¬ last.timestamp < t.timestamp := by
  intro t ht
  rw [InOrder, List.pairwise_append] at hord
  rcases List.mem_append.mp ht with hb | hl
  · exact Int64.not_lt.mpr (Int64.le_of_lt (hord.2.2 t hb last (by simp)))
  · rw [List.mem_singleton.mp hl]
    exact Int64.lt_irrefl

/-- A search from one transaction finds the next one. -/
theorem searchResult_next (hord : InOrder view.txs.toList)
    (htxs : view.txs.toList = before ++ last :: tx :: after) :
    searchResult view last.timestamp = numbered (before.length + 2) := by
  rw [htxs] at hord
  have hlast := not_lt_of_inOrder hord
  rw [InOrder, List.pairwise_append] at hord
  have htx : last.timestamp < tx.timestamp := List.rel_of_pairwise_cons hord.2.1 (by simp)
  have hsplit : view.txs.toList = (before ++ [last]) ++ tx :: after := by simp [htxs]
  rw [searchResult_of_later hsplit hlast htx]
  simp

/-- A search from the last transaction finds none. -/
theorem searchResult_last (hord : InOrder view.txs.toList)
    (htxs : view.txs.toList = before ++ [last]) :
    searchResult view last.timestamp = zeroQuad := by
  apply searchResult_of_none
  rw [htxs] at hord ⊢
  exact not_lt_of_inOrder hord

theorem toInt_numbered {n : Nat} (hn : n < 2 ^ 63) : (numbered n).first.toInt = n :=
  Int64.toInt_ofNat_of_lt hn

theorem txInA?_numbered {n : Nat} (hn : n + 1 < 2 ^ 63) (ha : m.a = numbered (n + 1))
    (htx : view.txs[n]? = some tx) : txInA? view m = some tx := by
  unfold txInA?
  rw [ha, toInt_numbered hn]
  simp only
  rw [if_pos (by omega)]
  simpa using htx

theorem numbered_ne_zero {n : Nat} (hn : n + 1 < 2 ^ 63) :
    (numbered (n + 1) == zeroQuad) = false := by
  have hne : numbered (n + 1) ≠ zeroQuad := by
    intro h
    have hzero : (numbered (n + 1)).first.toInt = 0 := by rw [h]; rfl
    rw [toInt_numbered hn] at hzero
    omega
  simpa using hne

/-- What a call reads of the transaction in A. -/
theorem fromTx_eq {field : Tx → Word} (h : txInA? view m = some tx) :
    fromTx view field m = .ok (field tx) m := by
  unfold fromTx
  rw [h]
  rfl

end Exec

end Pledge
