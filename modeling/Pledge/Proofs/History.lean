-- What is done to a chain from outside: transfers are queued and blocks are
-- mined. A history comes down to the transfers of each block, so the laws of
-- a chain are proved block by block.
import Pledge.Chain
import Pledge.Proofs.Words

namespace Pledge

/-- What can be done to a chain. -/
inductive Operation where
  | pay (sender : Address) (amount : Word)
  | message (sender : Address) (amount : Word)
  | mine
  deriving DecidableEq, Repr

/-- The transfers of one block, in the order in which they were queued. -/
abbrev Block := List Transfer

/-- The sum of the amounts, as integers. -/
def total (ts : List Transfer) : Int := (ts.map (·.amount.toInt)).sum

theorem total_nonneg {ts : List Transfer} (h : ∀ t ∈ ts, 0 ≤ t.amount.toInt) : 0 ≤ total ts := by
  induction ts with
  | nil => simp [total]
  | cons t ts ih =>
    have ht := h t (by simp)
    have hts := ih fun t h' => h t (by simp [h'])
    simp only [total, List.map_cons, List.sum_cons] at hts ⊢
    omega

theorem total_append (ts ts' : List Transfer) : total (ts ++ ts') = total ts + total ts' := by
  simp [total]

namespace Operation

/-- The transfer that an operation queues. -/
def transfer? : Operation → Option Transfer
  | pay sender amount => some ⟨.payment, sender, amount⟩
  | message sender amount => some ⟨.message, sender, amount⟩
  | mine => none

end Operation

/-- All transfers of a history, mined or not. -/
def transfers (ops : List Operation) : List Transfer := ops.filterMap Operation.transfer?

/-- The blocks that a history mines when some transfers wait already. -/
def blocksFrom (queued : Block) : List Operation → List Block
  | [] => []
  | op :: ops =>
    match op.transfer? with
    | some t => blocksFrom (queued ++ [t]) ops
    | none => queued :: blocksFrom [] ops

/-- The transfers that wait after a history. -/
def queuedAfter (queued : Block) : List Operation → Block
  | [] => queued
  | op :: ops =>
    match op.transfer? with
    | some t => queuedAfter (queued ++ [t]) ops
    | none => queuedAfter [] ops

/-- The blocks that a history mines, oldest first. -/
def blocks (ops : List Operation) : List Block := blocksFrom [] ops

/-- The transfers of all blocks mined, oldest first. -/
def mined (ops : List Operation) : List Transfer := (blocks ops).flatten

/-- A transfer is mined or still waits, and keeps its place. -/
theorem flatten_blocksFrom_append (queued : Block) (ops : List Operation) :
    (blocksFrom queued ops).flatten ++ queuedAfter queued ops = queued ++ transfers ops := by
  induction ops generalizing queued with
  | nil => simp [blocksFrom, queuedAfter, transfers]
  | cons op ops ih =>
    cases ht : op.transfer? with
    | some t =>
      have htail := ih (queued ++ [t])
      simp only [blocksFrom, queuedAfter, ht]
      rw [htail]
      simp [transfers, ht]
    | none =>
      have htail := ih []
      simp only [blocksFrom, queuedAfter, ht]
      rw [List.flatten_cons, List.append_assoc, htail]
      simp [transfers, ht]

/-- Operations that mine nothing fill the next block. -/
theorem blocksFrom_append (queued : Block) {ops : List Operation} (ops' : List Operation)
    (h : ∀ op ∈ ops, op ≠ .mine) :
    blocksFrom queued (ops ++ ops') = blocksFrom (queued ++ transfers ops) ops' := by
  induction ops generalizing queued with
  | nil => simp [transfers]
  | cons op ops ih =>
    have hrest (queued : Block) := ih queued fun op hop => h op (by simp [hop])
    cases op with
    | mine => exact absurd rfl (h .mine (by simp))
    | pay sender amount => simp [blocksFrom, Operation.transfer?, hrest, transfers]
    | message sender amount => simp [blocksFrom, Operation.transfer?, hrest, transfers]

theorem mined_append (ops : List Operation) :
    mined ops ++ queuedAfter [] ops = transfers ops := flatten_blocksFrom_append [] ops

/-- What was mined had been queued. -/
theorem mem_transfers_of_mem_mined {ops : List Operation} {t : Transfer} (h : t ∈ mined ops) :
    t ∈ transfers ops := by
  rw [← mined_append]
  exact List.mem_append_left _ h

namespace Chain

def perform (c : Chain) : Operation → Except Abort Chain
  | .pay sender amount => .ok (c.pay sender amount)
  | .message sender amount => .ok (c.message sender amount)
  | .mine => c.mine

def performAll (c : Chain) : List Operation → Except Abort Chain
  | [] => .ok c
  | op :: ops =>
    match c.perform op with
    | .ok c => c.performAll ops
    | .error a => .error a

/-- The chain with these transfers waiting. -/
def withPending (c : Chain) (b : Block) : Chain := { c with pending := b.toArray }

def takeBlock (c : Chain) (b : Block) : Except Abort Chain := (c.withPending b).mine

def takeBlocks (c : Chain) : List Block → Except Abort Chain
  | [] => .ok c
  | b :: bs =>
    match c.takeBlock b with
    | .ok c => c.takeBlocks bs
    | .error a => .error a

@[simp] theorem machine_withPending (c : Chain) (b : Block) :
    (c.withPending b).machine = c.machine := rfl

@[simp] theorem withPending_toList (c : Chain) : c.withPending c.pending.toList = c := by
  simp [withPending]

theorem mine_eq_takeBlock (c : Chain) : c.mine = c.takeBlock c.pending.toList := by
  simp [takeBlock]

theorem takeBlocks_append (c : Chain) (bs bs' : List Block) :
    c.takeBlocks (bs ++ bs') = (c.takeBlocks bs).bind (·.takeBlocks bs') := by
  induction bs generalizing c with
  | nil => rfl
  | cons b bs ih =>
    simp only [List.cons_append, takeBlocks]
    cases c.takeBlock b with
    | ok c => exact ih c
    | error a => rfl

/-! ## Transfers taken into a block -/

/-- The transactions that a block makes of its transfers. The first one has number `index + 1`. -/
def stamp (height : UInt32) (index : Nat) : List Transfer → List Tx
  | [] => []
  | t :: ts =>
    { t with timestamp := timestamp height (UInt32.ofNat (index + 1)) } ::
      stamp height (index + 1) ts

/-- What `receive` took, if it took all. -/
theorem receive_eq_ok {height : UInt32} {balance balance' : Word} {txs txs' : Array Tx}
    {index : Nat} {ts : List Transfer}
    (h : receive height balance txs index ts = .ok (balance', txs')) :
    balance'.toInt = balance.toInt + total ts ∧ txs' = txs ++ (stamp height index ts).toArray := by
  induction ts generalizing balance txs index with
  | nil =>
    cases h
    simp [total, stamp]
  | cons t ts ih =>
    unfold receive at h
    split at h
    · split at h
      · rename_i sum hsum
        obtain ⟨hb, ht⟩ := ih h
        have hadd := Word.addExact?_eq_some hsum
        refine ⟨?_, ?_⟩
        · rw [hb, hadd]
          simp only [total, List.map_cons, List.sum_cons]
          omega
        · rw [ht]
          simp [stamp]
      · cases h
    · cases h

/-- Money that is not negative and fits in a word is all taken. -/
theorem receive_of_fits {height : UInt32} {balance : Word} {txs : Array Tx} {index : Nat}
    {ts : List Transfer} (hlen : index + ts.length < 2 ^ 32) (hpos : ∀ t ∈ ts, 0 ≤ t.amount.toInt)
    (hbal : 0 ≤ balance.toInt) (hfit : balance.toInt + total ts < 2 ^ 63) :
    receive height balance txs index ts =
      .ok (Int64.ofInt (balance.toInt + total ts), txs ++ (stamp height index ts).toArray) := by
  induction ts generalizing balance txs index with
  | nil => simp [receive, total, stamp]
  | cons t ts ih =>
    have ht : 0 ≤ t.amount.toInt := hpos t (by simp)
    have hpos' : ∀ t ∈ ts, 0 ≤ t.amount.toInt := fun t h => hpos t (by simp [h])
    have hrest : 0 ≤ total ts := total_nonneg hpos'
    have hsum : total (t :: ts) = t.amount.toInt + total ts := by simp [total]
    have hfits : Word.Fits (balance.toInt + t.amount.toInt) :=
      Word.fits_of_le (by omega) (by omega : _ ≤ balance.toInt + total (t :: ts)) hfit
    have hlen' : index + 1 + ts.length < 2 ^ 32 := by simp at hlen; omega
    unfold receive
    rw [if_pos (by omega), Word.addExact?_of_fits hfits]
    simp only
    rw [ih hlen' hpos' (by rw [Word.toInt_ofInt hfits]; omega)
      (by rw [Word.toInt_ofInt hfits]; omega), Word.toInt_ofInt hfits, hsum, Int.add_assoc]
    simp [stamp]

/-! ## One block -/

/-- What the machine does in a block. -/
def activate (view : View) (m : Machine) : Except Abort Machine :=
  if m.awakeAt view.height then m.run view else .ok m

/-- The chain that has received a block, before its machine runs. -/
def received (c : Chain) (b : Block) (balance : Word) : Chain where
  height := c.height + 1
  pending := #[]
  txs := c.txs ++ (stamp (c.height + 1) 0 b).toArray
  machine := { c.machine with balance := balance }

/-- What the machine sees of the chain. -/
def view (c : Chain) : View := ⟨c.height, c.txs⟩

/-- A block is received, and then the machine runs. -/
theorem takeBlock_eq {c : Chain} (hh : c.height.toNat + 1 < 2 ^ 32) (b : Block) :
    c.takeBlock b = (receive (c.height + 1) c.machine.balance c.txs 0 b).bind fun p =>
      (activate ⟨c.height + 1, p.2⟩ { c.machine with balance := p.1 }).map fun m =>
        ⟨c.height + 1, #[], p.2, m⟩ := by
  have hlow : ¬ 0x100000000 ≤ c.height.toNat + 1 := by omega
  unfold takeBlock mine withPending activate
  simp only [if_neg hlow]
  cases receive (c.height + 1) c.machine.balance c.txs 0 b with
  | error a => rfl
  | ok p =>
    simp only [bind, Except.bind]
    split <;> rfl

/-- A block that is received whole is mined by letting the machine run. -/
theorem takeBlock_of_receive {c : Chain} {b : Block} {balance : Word} {txs : Array Tx}
    (hh : c.height.toNat + 1 < 2 ^ 32)
    (hr : receive (c.height + 1) c.machine.balance c.txs 0 b = .ok (balance, txs)) :
    c.takeBlock b =
      (activate (c.received b balance).view (c.received b balance).machine).map
        fun m => { c.received b balance with machine := m } := by
  rw [takeBlock_eq hh, hr, (receive_eq_ok hr).2]
  rfl

/-- What a block that was mined has done: it has received its transfers, and then the machine
has run if it was awake. -/
theorem takeBlock_inv {c c' : Chain} {b : Block} (h : c.takeBlock b = .ok c') :
    c.height.toNat + 1 < 2 ^ 32 ∧ ∃ balance m,
      receive (c.height + 1) c.machine.balance c.txs 0 b =
        .ok (balance, (c.received b balance).txs) ∧
      activate (c.received b balance).view (c.received b balance).machine = .ok m ∧
      c' = { c.received b balance with machine := m } := by
  have hh : c.height.toNat + 1 < 2 ^ 32 := by
    apply Nat.lt_of_not_le
    intro (hle : 0x100000000 ≤ c.height.toNat + 1)
    unfold takeBlock mine withPending at h
    rw [if_pos hle] at h
    cases h
  refine ⟨hh, ?_⟩
  cases hr : receive (c.height + 1) c.machine.balance c.txs 0 b with
  | error a =>
    rw [takeBlock_eq hh, hr] at h
    cases h
  | ok p =>
    obtain ⟨balance, txs⟩ := p
    rw [takeBlock_of_receive hh hr] at h
    cases ha : activate (c.received b balance).view (c.received b balance).machine with
    | error a =>
      rw [ha] at h
      cases h
    | ok m =>
      rw [ha] at h
      cases h
      exact ⟨balance, m, by rw [(receive_eq_ok hr).2]; rfl, ha, rfl⟩

/-- The same with the balance in numbers. -/
theorem takeBlock_eq_ok {c c' : Chain} {b : Block} (h : c.takeBlock b = .ok c') :
    c.height.toNat + 1 < 2 ^ 32 ∧ ∃ balance m,
      balance.toInt = c.machine.balance.toInt + total b ∧
      activate (c.received b balance).view (c.received b balance).machine = .ok m ∧
      c' = { c.received b balance with machine := m } := by
  obtain ⟨hh, balance, m, hr, ha, hc⟩ := takeBlock_inv h
  exact ⟨hh, balance, m, (receive_eq_ok hr).1, ha, hc⟩

/-- What `receive` took could be numbered. -/
theorem length_lt_of_receive {height : UInt32} {balance : Word} {txs : Array Tx} {index : Nat}
    {ts : List Transfer} {p : Word × Array Tx} (h : receive height balance txs index ts = .ok p)
    (hindex : index < 2 ^ 32) : index + ts.length < 2 ^ 32 := by
  induction ts generalizing balance txs index with
  | nil => simpa using hindex
  | cons t ts ih =>
    unfold receive at h
    split at h
    · rename_i hnext
      split at h
      · have hrest := ih h hnext
        rw [List.length_cons]
        omega
      · cases h
    · cases h

/-- What each block keeps, blocks in a row keep. -/
theorem takeBlocks_keeps {P : Chain → Prop} {c c' : Chain} {bs : List Block}
    (hblock : ∀ {c c' : Chain} {b : Block}, P c → c.takeBlock b = .ok c' → P c')
    (hc : P c) (h : c.takeBlocks bs = .ok c') : P c' := by
  induction bs generalizing c with
  | nil =>
    cases h
    exact hc
  | cons b bs ih =>
    unfold takeBlocks at h
    split at h
    · rename_i c₁ h₁
      exact ih (hblock hc h₁) h
    · cases h

/-! ## Histories and their blocks -/

/-- What waits before the next block does not matter to the blocks. -/
theorem map_takeBlocks_withPending (c : Chain) (b b' : Block) (bs : List Block) :
    ((c.withPending b).takeBlocks bs).map (withPending · b') =
      (c.takeBlocks bs).map (withPending · b') := by
  cases bs with
  | nil => rfl
  | cons b₁ bs => rfl

theorem perform_of_transfer {op : Operation} {t : Transfer} (h : op.transfer? = some t)
    (c : Chain) : c.perform op = .ok (c.withPending (c.pending.toList ++ [t])) := by
  have hq : c.withPending (c.pending.toList ++ [t]) = c.queue t := by
    rw [queue, withPending, ← Array.toList_push, Array.toArray_toList]
  rw [hq]
  cases op with
  | pay sender amount =>
    cases h
    rfl
  | message sender amount =>
    cases h
    rfl
  | mine => cases h

theorem perform_of_none {op : Operation} (h : op.transfer? = none) (c : Chain) :
    c.perform op = c.takeBlock c.pending.toList := by
  cases op with
  | mine => exact c.mine_eq_takeBlock
  | _ => cases h

/-- A history is its blocks: mining them one after the other leads to the same chain, but for the
transfers that wait. -/
theorem performAll_eq (c : Chain) (ops : List Operation) :
    c.performAll ops =
      (c.takeBlocks (blocksFrom c.pending.toList ops)).map
        (withPending · (queuedAfter c.pending.toList ops)) := by
  induction ops generalizing c with
  | nil => simp [performAll, blocksFrom, takeBlocks, queuedAfter, Except.map]
  | cons op ops ih =>
    cases ht : op.transfer? with
    | some t =>
      simp only [performAll, perform_of_transfer ht, blocksFrom, queuedAfter, ht]
      rw [ih, ← map_takeBlocks_withPending c (c.pending.toList ++ [t])]
      rfl
    | none =>
      simp only [performAll, perform_of_none ht, blocksFrom, queuedAfter, ht, takeBlocks]
      cases hb : c.takeBlock c.pending.toList with
      | error a => rfl
      | ok c' =>
        -- A mined block leaves nothing waiting.
        obtain ⟨_, balance, m, _, _, rfl⟩ := takeBlock_eq_ok hb
        exact ih _

theorem performAll_iff {c c' : Chain} {ops : List Operation} :
    c.performAll ops = .ok c' ↔
      ∃ c₁, c.takeBlocks (blocksFrom c.pending.toList ops) = .ok c₁ ∧
        c' = c₁.withPending (queuedAfter c.pending.toList ops) := by
  rw [performAll_eq]
  cases c.takeBlocks (blocksFrom c.pending.toList ops) with
  | error a => simp [Except.map]
  | ok c₁ => simp [Except.map, eq_comm]

/-- The same for a chain on which nothing waits yet. -/
theorem performAll_eq_ok {c c' : Chain} {ops : List Operation} (hp : c.pending = #[]) :
    c.performAll ops = .ok c' ↔
      ∃ c₁, c.takeBlocks (blocks ops) = .ok c₁ ∧ c' = c₁.withPending (queuedAfter [] ops) := by
  rw [performAll_iff, hp]
  rfl

end Chain

end Pledge
