-- The data segment over any slots. Slots may coincide, and any of them may lie
-- among the four of the awardee. Each part is written over its own bytes and no
-- others, so a slot holds what was written to it last, and zero if nothing was.
import Pledge.Campaign.Layout
import Pledge.Chain
import Pledge.Proofs.Encoding

namespace Pledge.Campaign

open Layout

/-! ## One write -/

namespace Layout

/-- Overwrites words in a row, from a slot on. -/
def setRow (ws : List Word) (slot : Nat) : List Word → List Word
  | [] => ws
  | w :: row => setRow (ws.set slot w) (slot + 1) row

theorem length_setRow (ws : List Word) (slot : Nat) (row : List Word) :
    (setRow ws slot row).length = ws.length := by
  induction row generalizing ws slot with
  | nil => rfl
  | cons w row ih => rw [setRow, ih, List.length_set]

/-- A row replaces as many words as it has. -/
theorem setRow_eq {ws row : List Word} {slot : Nat} (h : slot + row.length ≤ ws.length) :
    setRow ws slot row = ws.take slot ++ row ++ ws.drop (slot + row.length) := by
  induction row generalizing ws slot with
  | nil => simp [setRow]
  | cons w row ih =>
    rw [List.length_cons] at h
    have htake : (ws.set slot w).take (slot + 1) = ws.take slot ++ [w] := by
      rw [List.take_add_one, List.take_set_of_le (Nat.le_refl slot),
        List.getElem?_set_self (by omega)]
      rfl
    have hdrop : (ws.set slot w).drop (slot + 1 + row.length) =
        ws.drop (slot + (w :: row).length) := by
      rw [List.drop_set_of_lt (by omega), List.length_cons]
      congr 1
      omega
    rw [setRow, ih (by rw [List.length_set]; omega), htake, hdrop, List.append_assoc (ws.take slot),
      List.singleton_append]

end Layout

/-- Words that are written in a row, from a slot on. -/
structure Write where
  slot : Nat
  words : List Word

namespace Write

variable {w : Write} {ws : List Word}

/-- The slots of the write are among the first `count`. -/
def Inside (w : Write) (count : Nat) : Prop := w.slot + w.words.length ≤ count

/-- The word that the write puts into a slot, if it covers the slot. -/
def word? (w : Write) (slot : Nat) : Option Word :=
  if w.slot ≤ slot then w.words[slot - w.slot]? else none

/-- The words with the write done to them. -/
def onto (ws : List Word) (w : Write) : List Word := setRow ws w.slot w.words

/-- The bytes with the write done to them. -/
def ontoBytes? (data : Bytes) (w : Write) : Option Bytes :=
  overwrite? data (w.slot * 8) (Wire.bytesOfWords w.words)

theorem length_onto (ws : List Word) (w : Write) : (w.onto ws).length = ws.length :=
  length_setRow ws w.slot w.words

/-- Slots that the write does not cover keep their words. -/
theorem getElem?_onto (h : w.Inside ws.length) (slot : Nat) :
    (w.onto ws)[slot]? = (w.word? slot).or ws[slot]? := by
  have htake : (ws.take w.slot).length = w.slot := by
    unfold Inside at h
    rw [List.length_take]
    omega
  rw [onto, setRow_eq h, List.append_assoc]
  -- In front of the row, in it, and behind it.
  by_cases hbefore : slot < w.slot
  · rw [List.getElem?_append_left (by omega), List.getElem?_take_of_lt hbefore, word?,
      if_neg (by omega), Option.none_or]
  · rw [List.getElem?_append_right (by omega), htake, word?, if_pos (by omega)]
    by_cases hcovered : slot - w.slot < w.words.length
    · rw [List.getElem?_append_left hcovered, List.getElem?_eq_getElem hcovered, Option.some_or]
    · have hnone : w.words[slot - w.slot]? = none := List.getElem?_eq_none (by omega)
      rw [List.getElem?_append_right (by omega), List.getElem?_drop, hnone, Option.none_or]
      congr 1
      omega

/-- A write to bytes is a write to the words that they hold. -/
theorem ontoBytes?_eq_some {data : Bytes} :
    w.ontoBytes? (Wire.bytesOfWords ws) = some data ↔
      w.Inside ws.length ∧ data = Wire.bytesOfWords (w.onto ws) := by
  have hroom : w.slot * 8 + (Wire.bytesOfWords w.words).length ≤ (Wire.bytesOfWords ws).length ↔
      w.Inside ws.length := by
    unfold Inside
    rw [Wire.length_bytesOfWords, Wire.length_bytesOfWords]
    omega
  rw [ontoBytes?, overwrite?, Option.ite_none_right_eq_some, hroom, and_congr_right_iff]
  intro h
  have hend : w.slot * 8 + (Wire.bytesOfWords w.words).length =
      (w.slot + w.words.length) * 8 := by
    rw [Wire.length_bytesOfWords]
    omega
  rw [hend, Wire.take_bytesOfWords (Nat.le_of_add_right_le h), Wire.drop_bytesOfWords h,
    ← Wire.bytesOfWords_append, ← Wire.bytesOfWords_append, onto, setRow_eq h, Option.some.injEq,
    eq_comm]

end Write

/-! ## Writes in turn -/

section

variable {writes : List Write} {ws : List Word}

/-- Writes to bytes succeed exactly if all of them are inside. -/
theorem foldlM_ontoBytes?_eq_some {data : Bytes} :
    writes.foldlM Write.ontoBytes? (Wire.bytesOfWords ws) = some data ↔
      (∀ w ∈ writes, w.Inside ws.length) ∧
        data = Wire.bytesOfWords (writes.foldl Write.onto ws) := by
  -- No write changes how many words there are, so all of them find the same room.
  induction writes generalizing ws with
  | nil => simp [eq_comm]
  | cons w writes ih =>
    rw [List.foldlM_cons, List.foldl_cons, List.forall_mem_cons]
    constructor
    · intro h
      obtain ⟨mid, hmid, hrest⟩ := Option.bind_eq_some_iff.mp h
      obtain ⟨hw, rfl⟩ := Write.ontoBytes?_eq_some.mp hmid
      obtain ⟨hwrites, rfl⟩ := ih.mp hrest
      rw [Write.length_onto] at hwrites
      exact ⟨⟨hw, hwrites⟩, rfl⟩
    · rintro ⟨⟨hw, hwrites⟩, rfl⟩
      refine Option.bind_eq_some_iff.mpr
        ⟨_, Write.ontoBytes?_eq_some.mpr ⟨hw, rfl⟩, ih.mpr ⟨?_, rfl⟩⟩
      rw [Write.length_onto]
      exact hwrites

theorem length_foldl_onto (writes : List Write) (ws : List Word) :
    (writes.foldl Write.onto ws).length = ws.length := by
  induction writes generalizing ws with
  | nil => rfl
  | cons w writes ih => rw [List.foldl_cons, ih, Write.length_onto]

/-- The last write that covers a slot decides, and without one the slot keeps its word. -/
theorem getElem?_foldl_onto (h : ∀ w ∈ writes, w.Inside ws.length) (slot : Nat) :
    (writes.foldl Write.onto ws)[slot]? =
      (writes.reverse.findSome? (Write.word? · slot)).or ws[slot]? := by
  induction writes generalizing ws with
  | nil => rfl
  | cons w writes ih =>
    rw [List.forall_mem_cons] at h
    have hwrites : ∀ w' ∈ writes, w'.Inside (w.onto ws).length := by
      rw [Write.length_onto]
      exact h.2
    rw [List.foldl_cons, ih hwrites, Write.getElem?_onto h.1, List.reverse_cons,
      List.findSome?_append, Option.or_assoc]
    simp

end

/-- The word in a slot after writes over zeros: that of the last write that covers the slot. -/
def lastWord (writes : List Write) (slot : Nat) : Word :=
  (writes.reverse.findSome? (Write.word? · slot)).getD 0

theorem foldl_onto_zeros {writes : List Write} {count : Nat} (h : ∀ w ∈ writes, w.Inside count) :
    writes.foldl Write.onto (List.replicate count 0) =
      (List.range count).map (lastWord writes) := by
  have hinside : ∀ w ∈ writes, w.Inside (List.replicate count (0 : Word)).length := by
    rw [List.length_replicate]
    exact h
  apply List.ext_getElem?
  intro slot
  by_cases hslot : slot < count
  · rw [getElem?_foldl_onto hinside, List.getElem?_replicate, if_pos hslot, Option.or_some,
      List.getElem?_map, List.getElem?_range hslot]
    rfl
  · rw [List.getElem?_eq_none, List.getElem?_eq_none]
    · rw [List.length_map, List.length_range]
      omega
    · rw [length_foldl_onto, List.length_replicate]
      omega

/-! ## The data segment -/

namespace Layout

variable {l : Layout} {t : Terms}

/-- What is written over the zeros of the data segment, in this order. -/
def writes (l : Layout) (t : Terms) : List Write := [
  ⟨l.windowMinutes.toNat, [t.window]⟩, ⟨l.goalAmount.toNat, [t.goal.units]⟩,
  ⟨l.paymentKind.toNat, [TxKind.payment.word]⟩, ⟨l.awardee.toNat, t.awardee.toWords.toList⟩]

/-- The words of the data segment, where every write is inside. -/
def words (l : Layout) (t : Terms) : List Word :=
  (l.writes t).foldl Write.onto (List.replicate l.count 0)

theorem dataSegment?_eq_foldlM (l : Layout) (t : Terms) :
    l.dataSegment? t =
      (l.writes t).foldlM Write.ontoBytes? (Wire.bytesOfWords (List.replicate l.count 0)) := by
  simp only [writes, List.foldlM_cons, List.foldlM_nil, Write.ontoBytes?,
    Wire.bytesOfWords_singleton, Wire.bytesOfWords_zeros, Address.bytesOfWords_toWords, bind_pure]
  rfl

/-- The data segment can be written exactly if every write is inside. -/
theorem dataSegment?_eq_some {data : Bytes} :
    l.dataSegment? t = some data ↔
      (∀ w ∈ l.writes t, w.Inside l.count) ∧ data = Wire.bytesOfWords (l.words t) := by
  rw [dataSegment?_eq_foldlM, foldlM_ontoBytes?_eq_some, List.length_replicate, words]

theorem dataSegment?_eq_none :
    l.dataSegment? t = none ↔ ¬ ∀ w ∈ l.writes t, w.Inside l.count := by
  constructor
  · intro hnone hinside
    rw [dataSegment?_eq_some.mpr ⟨hinside, rfl⟩] at hnone
    cases hnone
  · intro h
    apply Option.eq_none_iff_forall_ne_some.mpr
    intro data hdata
    exact h (dataSegment?_eq_some.mp hdata).1

theorem inside_writes :
    (∀ w ∈ l.writes t, w.Inside l.count) ↔ l.windowMinutes.toNat < l.count ∧
      l.goalAmount.toNat < l.count ∧ l.paymentKind.toNat < l.count ∧
      l.awardee.toNat + 4 ≤ l.count := by
  simp [writes, Write.Inside, Nat.add_one_le_iff]

theorem words_eq_lastWords (h : ∀ w ∈ l.writes t, w.Inside l.count) :
    l.words t = (List.range l.count).map (lastWord (l.writes t)) := foldl_onto_zeros h

/-- Over slots that fit, the data segment is made of its words. -/
theorem dataSegment_eq (h : l.Fits) (t : Terms) :
    l.dataSegment h t = Wire.bytesOfWords (l.words t) := by
  have hinside : ∀ w ∈ l.writes t, w.Inside l.count :=
    inside_writes.mpr ⟨h.windowMinutes, h.goalAmount, h.paymentKind, h.awardee⟩
  exact Option.get_of_eq_some _ (dataSegment?_eq_some.mpr ⟨hinside, rfl⟩)

end Layout

/-- Over fourteen slots a data segment is written unless one of its slots lies outside, where the
awardee needs four. It holds fourteen words, and a machine finds them there: in each slot that of
the last write that covers it, and zero where none does. The words of the awardee hold the bytes of
the address and seven zeros. -/
theorem a_slot_holds_what_was_written_last {l : Layout} (hcount : l.count = 14) (t : Terms) :
    (l.dataSegment? t = none ↔ 14 ≤ l.windowMinutes.toNat ∨ 14 ≤ l.goalAmount.toNat ∨
      14 ≤ l.paymentKind.toNat ∨ 11 ≤ l.awardee.toNat) ∧
    (∀ data, l.dataSegment? t = some data → data.length = 112 ∧
      data = Wire.bytesOfWords ((List.range 14).map (lastWord (l.writes t))) ∧
      ∀ c : Container, c.data = data → ∀ creator created balance,
        (Machine.deploy c creator created balance).data.toList =
          (List.range 14).map (lastWord (l.writes t))) ∧
    Wire.bytesOfWords t.awardee.toWords.toList = t.awardee.toBytes ++ List.replicate 7 0 := by
  refine ⟨?_, ?_, ?_⟩
  · rw [dataSegment?_eq_none, inside_writes, hcount]
    omega
  · intro data hdata
    obtain ⟨hinside, rfl⟩ := dataSegment?_eq_some.mp hdata
    rw [words_eq_lastWords hinside, hcount]
    refine ⟨?_, rfl, ?_⟩
    · rw [Wire.length_bytesOfWords, List.length_map, List.length_range]
    · intro c hc creator created balance
      rw [Machine.deploy, hc, Wire.wordsOf_bytesOfWords]
  · rw [Address.bytesOfWords_toWords, Address.padded_eq]

/-- Slots that meet: the window lies among the slots of the awardee, and the kind of a payment is
written over the goal. -/
def meetingSlots : Layout :=
  { Layout.standard with windowMinutes := 11, goalAmount := 3, paymentKind := 3 }

/-- Neither the window nor the goal is left. -/
theorem a_slot_holds_what_was_written_last_where_slots_meet :
    meetingSlots.count = 14 ∧ ∃ t data, meetingSlots.dataSegment? t = some data ∧
      data.length = 112 ∧
      data = Wire.bytesOfWords (List.replicate 10 0 ++ t.awardee.toWords.toList) := by
  let t : Terms := ⟨10, ⟨1000000⟩, ⟨.account, .replicate 20 0xaa⟩, by decide, by decide⟩
  obtain ⟨hnone, hsome, _⟩ := a_slot_holds_what_was_written_last (l := meetingSlots) rfl t
  obtain ⟨data, hdata⟩ : ∃ data, meetingSlots.dataSegment? t = some data :=
    Option.ne_none_iff_exists'.mp (hnone.not.mpr (by decide))
  obtain ⟨hlength, hwords, _⟩ := hsome data hdata
  refine ⟨rfl, t, data, hdata, hlength, ?_⟩
  rw [hwords, Quad.toList_eq]
  rfl

end Pledge.Campaign
