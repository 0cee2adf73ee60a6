-- Minutes added to timestamps, a block each. The addition takes the height out
-- of the word together with its sign, so it is right for the lower half of all
-- heights only; and it adds before it looks at the range.
import Pledge.Machine.Call
import Pledge.Proofs.Words

namespace Pledge

/-- The height that is taken out of a timestamp with its sign. One of the upper half counts as
negative. -/
def signedHeight (height : UInt32) : Int :=
  if height.toNat < 2 ^ 31 then height.toNat else height.toNat - 2 ^ 32

theorem signedHeight_of_lt {height : UInt32} (h : height.toNat < 2 ^ 31) :
    signedHeight height = height.toNat := by
  rw [signedHeight, if_pos h]

theorem signedHeight_of_le {height : UInt32} (h : 2 ^ 31 ≤ height.toNat) :
    signedHeight height = height.toNat - 2 ^ 32 := by
  rw [signedHeight, if_neg (by omega)]

theorem toInt_timestamp_div (height sequence : UInt32) :
    (timestamp height sequence).toInt / 0x100000000 = signedHeight height := by
  have hs := sequence.toNat_lt
  by_cases h : height.toNat < 2 ^ 31
  · rw [toInt_timestamp h, signedHeight_of_lt h]
    omega
  · have hle : 2 ^ 31 ≤ height.toNat := by omega
    rw [toInt_timestamp_of_le hle, signedHeight_of_le hle]
    omega

/-- The height of a timestamp is found again. -/
theorem eq_of_timestamp_eq {height height' : UInt32}
    (h : timestamp height 0 = timestamp height' 0) :
    height = height' := by
  have hlt := height.toNat_lt
  have hlt' := height'.toNat_lt
  have hshr := shr_timestamp height 0
  rw [h, shr_timestamp height' 0, Option.some.injEq] at hshr
  have hint := congrArg Int64.toInt hshr
  rw [Int64.toInt_ofNat_of_lt (by omega), Int64.toInt_ofNat_of_lt (by omega)] at hint
  apply UInt32.toNat_inj.mp
  omega

namespace Exec

variable {view : View} {m : Machine}

/-- The start of the block at a height, or a fault if there is no such height. -/
def startOf (height : Int) (m : Machine) : EStateM.Result Halt Machine Word :=
  if 0 ≤ height ∧ height < 2 ^ 32 then .ok (timestamp (UInt32.ofNat height.toNat) 0) m
  else .error (.fault .timestampOverflow) m

theorem startOf_of_lt {height : Int} {n : Nat} (h : height = n) (hlt : n < 2 ^ 32) :
    startOf height m = .ok (timestamp (UInt32.ofNat n) 0) m := by
  have hrange : 0 ≤ height ∧ height < 2 ^ 32 := by omega
  rw [startOf, if_pos hrange, h, Int.toNat_natCast]

theorem startOf_of_neg {height : Int} (h : height < 0) :
    startOf height m = .error (.fault .timestampOverflow) m := by
  have hrange : ¬ (0 ≤ height ∧ height < 2 ^ 32) := by omega
  rw [startOf, if_neg hrange]

/-- Different heights have different starts, but those that do not exist fault alike. -/
theorem startOf_eq_iff {n k : Int} :
    startOf n m = startOf k m ↔
      n = k ∨ (¬ (0 ≤ n ∧ n < 2 ^ 32) ∧ ¬ (0 ≤ k ∧ k < 2 ^ 32)) := by
  by_cases hn : 0 ≤ n ∧ n < 2 ^ 32
  · by_cases hk : 0 ≤ k ∧ k < 2 ^ 32
    · rw [startOf, startOf, if_pos hn, if_pos hk]
      constructor
      · intro h
        have hheight := eq_of_timestamp_eq (EStateM.Result.ok.inj h).1
        have hnat := congrArg UInt32.toNat hheight
        rw [UInt32.toNat_ofNat_of_lt' (show _ < 2 ^ 32 by omega),
          UInt32.toNat_ofNat_of_lt' (show _ < 2 ^ 32 by omega)] at hnat
        left
        omega
      · rintro (rfl | ⟨hnot, _⟩)
        · rfl
        · exact absurd hn hnot
    · rw [startOf, startOf, if_pos hn, if_neg hk]
      simp only [reduceCtorEq, false_iff]
      omega
  · by_cases hk : 0 ≤ k ∧ k < 2 ^ 32
    · rw [startOf, startOf, if_neg hn, if_pos hk]
      simp only [reduceCtorEq, false_iff]
      omega
    · rw [startOf, startOf, if_neg hn, if_neg hk]
      simp only [true_iff]
      exact .inr ⟨hn, hk⟩

/-- A height that does not exist is a fault of the program, and never stops the node. -/
theorem startOf_ne_abort {height : Int} {a : Abort} {m' : Machine} :
    startOf height m ≠ .error (.abort a) m' := by
  unfold startOf
  split <;> simp

/-- Minutes are added to the signed height. -/
theorem movedTimestamp_timestamp (height sequence : UInt32) (minutes : Word) (m : Machine) :
    movedTimestamp (timestamp height sequence) minutes m =
      if Word.Fits (signedHeight height + minutes.toInt) then
        startOf (signedHeight height + minutes.toInt) m
      else .error (.abort .minutesOverflow) m := by
  unfold movedTimestamp
  simp only [toInt_timestamp_div]
  by_cases hfits : Word.Fits (signedHeight height + minutes.toInt)
  · rw [if_pos hfits, if_pos hfits]
    by_cases hrange : 0 ≤ signedHeight height + minutes.toInt ∧
        signedHeight height + minutes.toInt < 2 ^ 32
    · rw [startOf, if_pos hrange, if_pos (by omega)]
      rfl
    · rw [startOf, if_neg hrange, if_neg (by omega)]
      rfl
  · rw [if_neg hfits, if_neg hfits]
    rfl

/-- Below half of all heights minutes are blocks. -/
theorem movedTimestamp_of_lt {height sequence : UInt32} {minutes : Word} {moved : Nat}
    (hheight : height.toNat < 2 ^ 31) (hmoved : (moved : Int) = height.toNat + minutes.toInt)
    (hlt : moved < 2 ^ 32) :
    movedTimestamp (timestamp height sequence) minutes m =
      .ok (timestamp (UInt32.ofNat moved) 0) m := by
  have hfits : Word.Fits (height.toNat + minutes.toInt) := by
    unfold Word.Fits
    omega
  rw [movedTimestamp_timestamp, signedHeight_of_lt hheight, if_pos hfits,
    startOf_of_lt hmoved.symm hlt]

theorem call_addMinutes (view : View) (t minutes : Word) :
    call view .addMinutes [t, minutes] = movedTimestamp t minutes := rfl

end Exec

/-! ## The law of minutes -/

/-- The sum of a height and minutes is right as it is made: the height keeps its value and the sum
fits in a word, or the sum is so far outside that it faults with the wrong sign of the height too.
-/
def AddsUp (height : UInt32) (minutes : Word) : Prop :=
  if height.toNat < 2 ^ 31 then height.toNat + minutes.toInt < 2 ^ 63
  else -2 ^ 63 + 2 ^ 32 ≤ height.toNat + minutes.toInt ∧
    (height.toNat + minutes.toInt < 0 ∨ 2 ^ 33 ≤ height.toNat + minutes.toInt)

/-- Minutes that are added to the timestamp of a block give the start of the block at the height
that many blocks on, or a fault if there is none, exactly where the sum adds up. In all cases it is
the signed height that is moved, and the node gives up where no word holds the sum. What comes out
is the start of a block, and the upper half of it is its height. -/
theorem minutes_move_the_signed_height (view : View) (height sequence : UInt32) (minutes : Word)
    (m : Machine) :
    (Exec.call view .addMinutes [timestamp height sequence, minutes] m =
        Exec.startOf (height.toNat + minutes.toInt) m ↔ AddsUp height minutes) ∧
    (Exec.call view .addMinutes [timestamp height sequence, minutes] m =
      if Word.Fits (signedHeight height + minutes.toInt) then
        Exec.startOf (signedHeight height + minutes.toInt) m
      else .error (.abort .minutesOverflow) m) ∧
    ∀ t m', Exec.call view .addMinutes [timestamp height sequence, minutes] m = .ok t m' →
      ∃ moved : UInt32, moved.toNat = signedHeight height + minutes.toInt ∧
        t = timestamp moved 0 ∧ m' = m ∧
        ImmediateOp.shr.binary.apply t 32 = some (Int64.ofNat moved.toNat) := by
  have hlt := height.toNat_lt
  have hleast := minutes.le_toInt
  have hmost := minutes.toInt_lt
  rw [Exec.call_addMinutes, Exec.movedTimestamp_timestamp]
  refine ⟨?_, rfl, ?_⟩
  · by_cases hlow : height.toNat < 2 ^ 31
    · rw [AddsUp, if_pos hlow, signedHeight_of_lt hlow]
      by_cases hfits : Word.Fits (height.toNat + minutes.toInt)
      · rw [if_pos hfits]
        simpa using hfits.2
      · rw [if_neg hfits, eq_comm]
        simp only [Exec.startOf_ne_abort, false_iff]
        unfold Word.Fits at hfits
        omega
    · have hhigh : 2 ^ 31 ≤ height.toNat := by omega
      rw [AddsUp, if_neg hlow, signedHeight_of_le hhigh]
      by_cases hfits : Word.Fits (height.toNat - 2 ^ 32 + minutes.toInt)
      · rw [if_pos hfits, Exec.startOf_eq_iff]
        unfold Word.Fits at hfits
        omega
      · rw [if_neg hfits, eq_comm]
        simp only [Exec.startOf_ne_abort, false_iff]
        unfold Word.Fits at hfits
        omega
  · intro t m' h
    split at h
    · unfold Exec.startOf at h
      split at h
      · rename_i hrange
        cases h
        refine ⟨_, ?_, rfl, rfl, shr_timestamp _ 0⟩
        rw [UInt32.toNat_ofNat_of_lt' (show _ < 2 ^ 32 by omega)]
        omega
      · cases h
    · cases h

/-- No minutes added to the first height of the upper half are a fault, although the block exists.
The most minutes added to the first block stop the node, although they should be a fault. -/
theorem minutes_do_not_always_move_the_height :
    (∀ view m,
      Exec.call view .addMinutes [timestamp 0x80000000 0, 0] m =
        .error (.fault .timestampOverflow) m ∧
      Exec.startOf (0x80000000 + 0) m = .ok (timestamp 0x80000000 0) m) ∧
    ∀ view m,
      Exec.call view .addMinutes [timestamp 1 0, Int64.maxValue] m =
        .error (.abort .minutesOverflow) m ∧
      Exec.startOf (1 + Int64.maxValue.toInt) m = .error (.fault .timestampOverflow) m := by
  refine ⟨fun view m => ⟨rfl, ?_⟩, fun view m => ⟨rfl, ?_⟩⟩
  · exact Exec.startOf_of_lt rfl (by decide)
  · rw [Exec.startOf, if_neg (by decide)]

end Pledge
