-- When a machine does not run: one that sleeps or is done receives money, and
-- nothing else happens to it.
import Pledge.Proofs.Order

namespace Pledge

/-- Blocks that can be taken on top of a balance: nobody gives less than nothing, all of it
together fits in a word, and no block is too long to be numbered. -/
structure Regular (balance : Int) (bs : List Block) : Prop where
  nonneg : 0 ≤ balance
  amounts : ∀ t ∈ bs.flatten, 0 ≤ t.amount.toInt
  fits : balance + total bs.flatten < 2 ^ 63
  lengths : ∀ b ∈ bs, b.length < 2 ^ 32

namespace Regular

variable {balance : Int} {bs bs' : List Block}

theorem left (h : Regular balance (bs ++ bs')) : Regular balance bs := by
  have hlater : 0 ≤ total bs'.flatten := by
    apply total_nonneg
    intro t ht
    exact h.amounts t (by simp only [List.flatten_append, List.mem_append]; exact .inr ht)
  have hfits := h.fits
  rw [List.flatten_append, total_append] at hfits
  refine ⟨h.nonneg, ?_, by omega, fun b hb => h.lengths b (by simp [hb])⟩
  intro t ht
  exact h.amounts t (by simp only [List.flatten_append, List.mem_append]; exact .inl ht)

theorem right (h : Regular balance (bs ++ bs')) : Regular (balance + total bs.flatten) bs' := by
  have hearlier : 0 ≤ total bs.flatten := total_nonneg h.left.amounts
  have hbalance := h.nonneg
  have hfits := h.fits
  rw [List.flatten_append, total_append] at hfits
  refine ⟨by omega, ?_, by omega, fun b hb => h.lengths b (by simp [hb])⟩
  intro t ht
  exact h.amounts t (by simp only [List.flatten_append, List.mem_append]; exact .inr ht)

theorem toInt_ofInt (h : Regular balance bs) :
    (Int64.ofInt (balance + total bs.flatten)).toInt = balance + total bs.flatten := by
  have hbalance := h.nonneg
  have hmore := total_nonneg h.amounts
  exact Word.toInt_ofInt (Word.fits_of_le (by omega) (Int.le_refl _) h.fits)

theorem toInt_ofInt_block {b : Block} (h : Regular balance [b]) :
    (Int64.ofInt (balance + total b)).toInt = balance + total b := by
  have hexact := h.toInt_ofInt
  rw [List.flatten_singleton] at hexact
  exact hexact

end Regular

namespace Chain

variable {c c' : Chain} {b : Block} {bs : List Block}

theorem activate_of_awake {view : View} {m : Machine} (h : m.awakeAt view.height = true) :
    activate view m = m.run view := by
  unfold activate
  rw [if_pos h]

theorem activate_of_asleep {view : View} {m : Machine} (h : m.awakeAt view.height = false) :
    activate view m = .ok m := by
  unfold activate
  rw [if_neg (ne_true_of_eq_false h)]

/-- A regular block is received whole. -/
theorem receive_of_regular (h : Regular c.machine.balance.toInt [b]) :
    receive (c.height + 1) c.machine.balance c.txs 0 b =
      .ok (Int64.ofInt (c.machine.balance.toInt + total b),
        c.txs ++ (stamp (c.height + 1) 0 b).toArray) := by
  have hlen := h.lengths b (by simp)
  have hamounts := h.amounts
  have hfits := h.fits
  simp only [List.flatten_cons, List.flatten_nil, List.append_nil] at hamounts hfits
  exact receive_of_fits (by omega) hamounts h.nonneg hfits

/-- The chain that has received a regular block, before its machine runs. -/
def credited (c : Chain) (b : Block) : Chain :=
  c.received b (Int64.ofInt (c.machine.balance.toInt + total b))

theorem toInt_balance_credited (h : Regular c.machine.balance.toInt [b]) :
    (c.credited b).machine.balance.toInt = c.machine.balance.toInt + total b :=
  h.toInt_ofInt_block

/-- Mining a regular block lets the machine run on what it has received. -/
theorem takeBlock_of_regular (hheight : c.height.toNat + 1 < 2 ^ 32)
    (h : Regular c.machine.balance.toInt [b]) :
    c.takeBlock b =
      (activate (c.credited b).view (c.credited b).machine).map
        fun m => { c.credited b with machine := m } :=
  takeBlock_of_receive hheight (receive_of_regular h)

theorem height_takeBlock (h : c.takeBlock b = .ok c') : c'.height.toNat = c.height.toNat + 1 := by
  obtain ⟨hh, balance, m, _, _, rfl⟩ := takeBlock_eq_ok h
  exact toNat_succ hh

theorem height_takeBlocks (h : c.takeBlocks bs = .ok c') :
    c'.height.toNat = c.height.toNat + bs.length := by
  induction bs generalizing c with
  | nil =>
    cases h
    rfl
  | cons b bs ih =>
    unfold takeBlocks at h
    split at h
    · rename_i c₁ h₁
      have hfirst := height_takeBlock h₁
      have hrest := ih h
      rw [List.length_cons]
      omega
    · cases h

/-! ## Blocks in which a machine does not run -/

/-- In a block in which it is not awake, a machine keeps all but its balance. -/
theorem machine_takeBlock_of_asleep (h : c.takeBlock b = .ok c')
    (hasleep : c.machine.awakeAt c'.height = false) :
    ∃ balance, c'.machine = { c.machine with balance := balance } ∧
      balance.toInt = c.machine.balance.toInt + total b := by
  obtain ⟨_, balance, m, hbalance, ha, rfl⟩ := takeBlock_eq_ok h
  rw [activate_of_asleep hasleep] at ha
  cases ha
  exact ⟨balance, rfl, hbalance⟩

/-- The same for blocks in a row, by induction on them. -/
theorem machine_takeBlocks_of_asleep (h : c.takeBlocks bs = .ok c')
    (hasleep : ∀ height : UInt32, height.toNat ≤ c.height.toNat + bs.length →
      c.machine.awakeAt height = false) :
    ∃ balance, c'.machine = { c.machine with balance := balance } ∧
      balance.toInt = c.machine.balance.toInt + total bs.flatten := by
  induction bs generalizing c with
  | nil =>
    cases h
    exact ⟨c'.machine.balance, rfl, by simp [total]⟩
  | cons b bs ih =>
    unfold takeBlocks at h
    split at h
    · rename_i c₁ h₁
      have hheight := height_takeBlock h₁
      rw [List.length_cons] at hasleep
      obtain ⟨balance, hm, hbalance⟩ := machine_takeBlock_of_asleep h₁ (hasleep _ (by omega))
      have hasleep₁ : ∀ height : UInt32, height.toNat ≤ c₁.height.toNat + bs.length →
          c₁.machine.awakeAt height = false := by
        intro height hle
        rw [hm]
        exact hasleep height (by omega)
      obtain ⟨balance', hm', hbalance'⟩ := ih h hasleep₁
      rw [hm] at hm' hbalance'
      refine ⟨balance', hm', ?_⟩
      rw [hbalance', List.flatten_cons, total_append]
      simp only
      omega
    · cases h

/-! ## Sleep -/

theorem awakeAt_of_sleeping {m : Machine} {wake height : UInt32} (hs : m.status = .sleeping wake) :
    m.awakeAt height = decide (wake ≤ height) := by
  unfold Machine.awakeAt
  rw [hs]

/-- The chain after blocks in which its machine does not run. -/
def afterBlocks (c : Chain) (bs : List Block) : Chain where
  height := c.height + UInt32.ofNat bs.length
  pending := #[]
  txs := c.txs ++ (stamps c.height bs).toArray
  machine := { c.machine with
    balance := Int64.ofInt (c.machine.balance.toInt + total bs.flatten) }

theorem afterBlocks_nil (hp : c.pending = #[]) : c.afterBlocks [] = c := by
  cases c
  simp_all [afterBlocks, stamps, total]

theorem afterBlocks_cons (h : Regular c.machine.balance.toInt [b]) :
    c.afterBlocks (b :: bs) = (c.credited b).afterBlocks bs := by
  have hbalance := toInt_balance_credited h
  have hheight : c.height + UInt32.ofNat (bs.length + 1) = c.height + 1 + UInt32.ofNat bs.length :=
    (add_ofNat_succ c.height bs.length).symm
  unfold afterBlocks
  rw [hbalance, List.flatten_cons, total_append, List.length_cons, hheight, Int.add_assoc]
  simp [stamps, credited, received]

/-- Until a sleeping machine wakes, blocks only bring it money. By induction on the blocks. -/
theorem takeBlocks_of_sleeping {wake : UInt32} (hp : c.pending = #[])
    (hs : c.machine.status = .sleeping wake) (hwake : c.height.toNat + bs.length < wake.toNat)
    (h : Regular c.machine.balance.toInt bs) : c.takeBlocks bs = .ok (c.afterBlocks bs) := by
  induction bs generalizing c with
  | nil => rw [afterBlocks_nil hp, takeBlocks]
  | cons b bs ih =>
    have hsplit : Regular c.machine.balance.toInt ([b] ++ bs) := h
    have hb : Regular c.machine.balance.toInt [b] := hsplit.left
    have hbs : Regular (c.credited b).machine.balance.toInt bs := by
      rw [toInt_balance_credited hb]
      simpa using hsplit.right
    have hlt := wake.toNat_lt
    rw [List.length_cons] at hwake
    have hsucc : (c.height + 1).toNat = c.height.toNat + 1 := toNat_succ (by omega)
    have hasleep : (c.credited b).machine.awakeAt (c.credited b).view.height = false := by
      simp [credited, received, view, Machine.awakeAt, hs, UInt32.lt_iff_toNat_lt, hsucc]
      omega
    -- It does not wake in this block, so the money is all that it gets.
    have htake : c.takeBlock b = .ok (c.credited b) := by
      rw [takeBlock_of_regular (by omega) hb, activate_of_asleep hasleep]
      rfl
    unfold takeBlocks
    rw [htake, afterBlocks_cons hb]
    exact ih rfl hs (by simp [credited, received, hsucc]; omega) hbs

/-! ## The end -/

theorem awakeAt_of_done {m : Machine} (h : m.isDone = true) (height : UInt32) :
    m.awakeAt height = false := by
  unfold Machine.isDone at h
  unfold Machine.awakeAt
  split at h <;> simp_all

/-- A machine that is done keeps all but its balance. -/
theorem machine_takeBlocks_of_done (hd : c.machine.isDone = true) (h : c.takeBlocks bs = .ok c') :
    ∃ balance, c'.machine = { c.machine with balance := balance } ∧
      balance.toInt = c.machine.balance.toInt + total bs.flatten :=
  machine_takeBlocks_of_asleep h fun height _ => awakeAt_of_done hd height

/-- Whatever is done to the chain of a machine that is done, the machine keeps all but its
balance, and that grows by what is mined. -/
theorem machine_performAll_of_done {ops : List Operation} (hd : c.machine.isDone = true)
    (h : c.performAll ops = .ok c') :
    ∃ balance, c'.machine = { c.machine with balance := balance } ∧
      balance.toInt = c.machine.balance.toInt +
        total (blocksFrom c.pending.toList ops).flatten := by
  obtain ⟨c₁, hb, rfl⟩ := performAll_iff.mp h
  rw [machine_withPending]
  exact machine_takeBlocks_of_done hd hb

end Chain

end Pledge
