-- The data segment of a campaign: a word for each of its variables, and four
-- in a row for the awardee, so that one call loads the address into B.
import Pledge.Campaign.Terms
import Pledge.Machine.State

namespace Pledge.Campaign

/-- The slots that an address takes up. -/
def addressSlots : UInt32 := 4

/-- The slots of the variables, and how many there are. -/
structure Layout where
  windowMinutes : UInt32
  goalAmount : UInt32
  /-- The timestamp of the block in which the window closes. -/
  deadline : UInt32
  /-- The height of that block. -/
  wakeHeight : UInt32
  finalBalance : UInt32
  /-- The timestamp of the last transaction looked at. -/
  cursor : UInt32
  /-- Whether no transaction was found. -/
  exhausted : UInt32
  txKind : UInt32
  /-- The kind of transaction that is refunded. -/
  paymentKind : UInt32
  paymentAmount : UInt32
  /-- The first slot of the address. -/
  awardee : UInt32
  count : Nat
  deriving DecidableEq, Repr

namespace Layout

/-! ## Numbering -/

/-- Hands out slots in a row, the first of them by its number. The state is the next free slot. -/
def reserve (count : UInt32) : StateM UInt32 UInt32 := do
  let slot ← get
  set (slot + count)
  return slot

/-- Gives each variable its slots, one after the other. -/
def allocate : StateM UInt32 Layout := do
  return {
    windowMinutes := ← reserve 1
    goalAmount := ← reserve 1
    deadline := ← reserve 1
    wakeHeight := ← reserve 1
    finalBalance := ← reserve 1
    cursor := ← reserve 1
    exhausted := ← reserve 1
    txKind := ← reserve 1
    paymentKind := ← reserve 1
    paymentAmount := ← reserve 1
    awardee := ← reserve addressSlots
    count := (← get).toNat }

/-- The slots from zero on. -/
def standard : Layout := (allocate.run 0).run.1

/-! ## Writing -/

/-- The length of the data segment in bytes. -/
def dataSize (l : Layout) : Nat := l.count * 8

/-- Overwrites the bytes from a position on. There must be as many. -/
def overwrite? (data : Bytes) (start : Nat) (bs : Bytes) : Option Bytes :=
  if start + bs.length ≤ data.length then
    some (data.take start ++ bs ++ data.drop (start + bs.length))
  else none

/-- Overwrites the bytes of the word in a slot. -/
def putWord? (data : Bytes) (slot : UInt32) (w : Word) : Option Bytes :=
  overwrite? data (slot.toNat * 8) (Wire.scalarBytes w)

/-- Writes the data segment over zeros: the window, the goal, the kind of a payment and the awardee,
one after the other. There is none if a slot lies outside of it. -/
def dataSegment? (l : Layout) (t : Terms) : Option Bytes := do
  let zeros := List.replicate l.dataSize 0
  let withWindow ← putWord? zeros l.windowMinutes t.window
  let withGoal ← putWord? withWindow l.goalAmount t.goal.units
  let withKind ← putWord? withGoal l.paymentKind TxKind.payment.word
  overwrite? withKind (l.awardee.toNat * 8) (t.awardee.padded 32)

/-! ## Slots that fit -/

/-- All that is written lies inside of the data segment. -/
structure Fits (l : Layout) : Prop where
  windowMinutes : l.windowMinutes.toNat < l.count
  goalAmount : l.goalAmount.toNat < l.count
  paymentKind : l.paymentKind.toNat < l.count
  awardee : l.awardee.toNat + addressSlots.toNat ≤ l.count

theorem fits_standard : standard.Fits := ⟨by decide, by decide, by decide, by decide⟩

theorem exists_overwrite? (data : Bytes) (start : Nat) (bs : Bytes)
    (h : start + bs.length ≤ data.length) :
    ∃ data', overwrite? data start bs = some data' ∧ data'.length = data.length := by
  refine ⟨_, if_pos h, ?_⟩
  simp only [List.length_append, List.length_take, List.length_drop]
  omega

theorem exists_putWord? {data : Bytes} {slot : UInt32} {count : Nat} (hslot : slot.toNat < count)
    (hdata : data.length = count * 8) (w : Word) :
    ∃ data', putWord? data slot w = some data' ∧ data'.length = count * 8 := by
  have hwidth : (Wire.scalarBytes w).length = 8 := Wire.length_scalarBytes w
  obtain ⟨data', hput, hlength⟩ :=
    exists_overwrite? data (slot.toNat * 8) (Wire.scalarBytes w) (by omega)
  exact ⟨data', hput, hlength.trans hdata⟩

theorem isSome_dataSegment? {l : Layout} (h : l.Fits) (t : Terms) :
    (l.dataSegment? t).isSome = true := by
  have hslots : addressSlots.toNat = 4 := rfl
  have hzeros : (List.replicate l.dataSize (0 : UInt8)).length = l.count * 8 :=
    List.length_replicate
  have hpadded : (t.awardee.padded 32).length = 32 := t.awardee.length_padded 32
  have hawardee := h.awardee
  obtain ⟨withWindow, hwindow, hlength⟩ := exists_putWord? h.windowMinutes hzeros t.window
  obtain ⟨withGoal, hgoal, hlength⟩ := exists_putWord? h.goalAmount hlength t.goal.units
  obtain ⟨withKind, hkind, hlength⟩ :=
    exists_putWord? h.paymentKind hlength TxKind.payment.word
  obtain ⟨data, hdata, _⟩ :=
    exists_overwrite? withKind (l.awardee.toNat * 8) (t.awardee.padded 32) (by omega)
  simp only [dataSegment?, hwindow, hgoal, hkind, hdata, Option.bind_eq_bind, Option.bind_some,
    Option.isSome_some]

/-- The data segment over slots that fit. -/
def dataSegment (l : Layout) (h : l.Fits) (t : Terms) : Bytes :=
  (l.dataSegment? t).get (isSome_dataSegment? h t)

end Layout

end Pledge.Campaign
