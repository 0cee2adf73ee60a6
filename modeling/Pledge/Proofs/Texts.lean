-- The texts of bytes and of addresses. A byte string has one Base58 text, and
-- a text that can be read is the one that is written for its bytes, so an
-- address and its text determine each other.
import Mathlib.Data.List.DropRight
import Mathlib.Data.Nat.Digits.Lemmas
import Pledge.Proofs.Encoding
import Pledge.Text.Characters

namespace Pledge

namespace Text

/-! ## Blanks -/

section

variable {cs ds blanks : List Char} {c : Char}

theorem trimEnd_eq (cs : List Char) : trimEnd cs = cs.rdropWhile isBlank := rfl

theorem trimEnd_append (h : ∀ c ∈ blanks, isBlank c = true) :
    trimEnd (cs ++ blanks) = trimEnd cs := by
  unfold trimEnd
  rw [List.reverse_append, List.dropWhile_append_of_pos (by simpa using h)]

theorem trimEnd_concat (h : isBlank c = false) : trimEnd (cs ++ [c]) = cs ++ [c] :=
  List.rdropWhile_concat_neg _ _ c (by simp [h])

/-- The characters `cs` are the characters `ds` with nothing but blanks around them. -/
def AmongBlanks (cs ds : List Char) : Prop :=
  ∃ before after, (∀ c ∈ before, isBlank c = true) ∧ (∀ c ∈ after, isBlank c = true) ∧
    cs = before ++ (ds ++ after)

theorem amongBlanks_trim (cs : List Char) : AmongBlanks cs (trim cs) := by
  refine ⟨cs.takeWhile isBlank, (cs.dropWhile isBlank).rtakeWhile isBlank,
    fun c hc => List.mem_takeWhile_imp hc, fun c hc => List.mem_rtakeWhile_imp hc, ?_⟩
  rw [trim, trimEnd_eq, List.rdropWhile_append_rtakeWhile, List.takeWhile_append_dropWhile]

/-- Where there is no blank in the characters, the blanks around them are all that is trimmed. -/
theorem trim_eq_iff (h : ∀ c ∈ ds, isBlank c = false) : trim cs = ds ↔ AmongBlanks cs ds := by
  constructor
  · rintro rfl
    exact amongBlanks_trim cs
  · rintro ⟨before, after, hbefore, hafter, rfl⟩
    rw [trim, List.dropWhile_append_of_pos hbefore]
    cases ds with
    | nil =>
      rw [List.nil_append, List.dropWhile_eq_nil_iff.mpr hafter]
      rfl
    | cons d ds =>
      have hlast : isBlank ((d :: ds).getLast (by simp)) = false := h _ (List.getLast_mem _)
      rw [List.cons_append, List.dropWhile_cons_of_neg (by simp [h d]), ← List.cons_append,
        trimEnd_append hafter, ← List.dropLast_concat_getLast (List.cons_ne_nil d ds),
        trimEnd_concat hlast]

end

/-! ## Digits -/

variable {b c : Nat}

theorem digitsOnto_eq (hb : 1 < b) (n : Nat) (low : List Nat) :
    digitsOnto b n low = (Nat.digits b n).reverse ++ low := by
  induction n using Nat.strongRecOn generalizing low with
  | ind n ih =>
    unfold digitsOnto
    by_cases hn : n = 0
    · simp [hn]
    · have hpos : 0 < n := Nat.pos_of_ne_zero hn
      rw [dif_neg (by omega), ih (n / b) (Nat.div_lt_self hpos hb), Nat.digits_def' hb hpos]
      simp

theorem digits_eq (hb : 1 < b) (n : Nat) : digits b n = (Nat.digits b n).reverse := by
  simp [digits, digitsOnto_eq hb]

theorem ofDigits_eq (ds : List Nat) : ofDigits b ds = Nat.ofDigits b ds.reverse := by
  unfold ofDigits
  rw [Nat.ofDigits_eq_foldr, List.foldr_reverse]
  simp [Nat.mul_comm, Nat.add_comm]

theorem ofDigits_digits (hb : 1 < b) (n : Nat) : ofDigits b (digits b n) = n := by
  rw [digits_eq hb, ofDigits_eq, List.reverse_reverse, Nat.ofDigits_digits]

theorem digits_lt (hb : 1 < b) {n d : Nat} (hd : d ∈ digits b n) : d < b := by
  rw [digits_eq hb, List.mem_reverse] at hd
  exact Nat.digits_lt_base hb hd

theorem ofDigits_zeros_append (k : Nat) (ds : List Nat) :
    ofDigits b (List.replicate k 0 ++ ds) = ofDigits b ds := by
  simp [ofDigits_eq]

/-- The number has no zeros in front. -/
theorem takeWhile_digits (hb : 1 < b) (n : Nat) : (digits b n).takeWhile (· == 0) = [] := by
  by_cases hn : n = 0
  · simp [hn, digits_eq hb]
  · have hne : Nat.digits b n ≠ [] := Nat.digits_ne_nil_iff_ne_zero.mpr hn
    have hlast := Nat.getLast_digit_ne_zero b hn
    rw [digits_eq hb, ← List.dropLast_append_getLast hne, List.reverse_append]
    simp [hlast]

/-- Digits without zeros in front are those of their number. -/
theorem digits_ofDigits (hb : 1 < b) {ds : List Nat} (hlt : ∀ d ∈ ds, d < b)
    (hfront : ds.takeWhile (· == 0) = []) : digits b (ofDigits b ds) = ds := by
  rw [digits_eq hb, ofDigits_eq, Nat.digits_ofDigits b hb, List.reverse_reverse]
  · simpa using hlt
  · intro hne
    rw [List.getLast_reverse]
    cases ds with
    | nil => simp at hne
    | cons d ds =>
      intro (hd : d = 0)
      simp [hd] at hfront

theorem exists_zeros_append (ds : List Nat) :
    ∃ k rest, ds = List.replicate k 0 ++ rest ∧ rest.takeWhile (· == 0) = [] := by
  induction ds with
  | nil => exact ⟨0, [], rfl, rfl⟩
  | cons d ds ih =>
    by_cases hd : d = 0
    · obtain ⟨k, rest, hsplit, hfront⟩ := ih
      exact ⟨k + 1, rest, by simp [hd, hsplit, List.replicate_succ], hfront⟩
    · exact ⟨0, d :: ds, rfl, by simp [hd]⟩

/-- Digits in one base as digits in another. Zeros in front stay. -/
def rebase (b c : Nat) (ds : List Nat) : List Nat :=
  List.replicate (ds.takeWhile (· == 0)).length 0 ++ digits c (ofDigits b ds)

theorem rebase_lt (hc : 1 < c) {ds : List Nat} {d : Nat} (hd : d ∈ rebase b c ds) : d < c := by
  rcases List.mem_append.mp hd with hzero | hd
  · rw [(List.mem_replicate.mp hzero).2]
    omega
  · exact digits_lt hc hd

theorem rebase_zeros_append {k : Nat} {rest : List Nat} (hfront : rest.takeWhile (· == 0) = []) :
    rebase b c (List.replicate k 0 ++ rest) =
      List.replicate k 0 ++ digits c (ofDigits b rest) := by
  have hzeros : (List.replicate k 0 ++ rest).takeWhile (· == 0) = List.replicate k 0 := by
    rw [List.takeWhile_append_of_pos (by simp), hfront, List.append_nil]
  rw [rebase, hzeros, ofDigits_zeros_append, List.length_replicate]

/-- The way back to the first base gives the digits again. -/
theorem rebase_rebase (hb : 1 < b) (hc : 1 < c) {ds : List Nat} (hlt : ∀ d ∈ ds, d < b) :
    rebase c b (rebase b c ds) = ds := by
  obtain ⟨k, rest, rfl, hfront⟩ := exists_zeros_append ds
  have hrest : ∀ d ∈ rest, d < b := by
    intro d hd
    exact hlt d (List.mem_append_right _ hd)
  rw [rebase_zeros_append hfront, rebase_zeros_append (takeWhile_digits hc _), ofDigits_digits hc,
    digits_ofDigits hb hrest hfront]

theorem length_takeWhile_digits (hc : 1 < c) (k n : Nat) :
    ((List.replicate k 0 ++ digits c n).takeWhile (· == 0)).length = k := by
  rw [List.takeWhile_append_of_pos (by simp), takeWhile_digits hc, List.append_nil,
    List.length_replicate]

/-- Digits are those of another base where as many zeros stand in front and the number is the same.
-/
theorem eq_rebase_iff (hc : 1 < c) {ds es : List Nat} (hlt : ∀ d ∈ es, d < c) :
    es = rebase b c ds ↔
      (es.takeWhile (· == 0)).length = (ds.takeWhile (· == 0)).length ∧
        ofDigits c es = ofDigits b ds := by
  constructor
  · rintro rfl
    refine ⟨length_takeWhile_digits hc _ _, ?_⟩
    rw [rebase, ofDigits_zeros_append, ofDigits_digits hc]
  · rintro ⟨hzeros, hnumber⟩
    obtain ⟨k, rest, rfl, hfront⟩ := exists_zeros_append es
    have hrest : ∀ d ∈ rest, d < c := by
      intro d hd
      exact hlt d (List.mem_append_right _ hd)
    rw [List.takeWhile_append_of_pos (by simp), hfront, List.append_nil,
      List.length_replicate] at hzeros
    rw [ofDigits_zeros_append] at hnumber
    rw [rebase, ← hzeros, ← hnumber, digits_ofDigits hc hrest hfront]

/-- A number from `d` times a power of the base on and below the next multiple begins with the digit
`d`, and the power tells how many digits follow. -/
theorem digits_of_band (hb : 1 < b) {n d k : Nat} (hpos : 0 < d) (hd : d < b) (hlow : d * b ^ k ≤ n)
    (hhigh : n < (d + 1) * b ^ k) : (digits b n).length = k + 1 ∧ (digits b n).head? = some d := by
  have hdigit : n / b ^ k = d := Nat.div_eq_of_lt_le hlow hhigh
  have hlength : (Nat.digits b n).length = k + 1 := by
    apply Nat.le_antisymm
    · rw [Nat.digits_length_le_iff hb, Nat.pow_succ']
      exact hhigh.trans_le (Nat.mul_le_mul_right _ hd)
    · exact (Nat.lt_digits_length_iff hb n).mpr ((Nat.le_mul_of_pos_left _ hpos).trans hlow)
  have hlast := Nat.getD_digits n k hb
  rw [hdigit, Nat.mod_eq_of_lt hd, List.getD_eq_getElem?_getD, List.getElem?_eq_getElem (by omega),
    Option.getD_some] at hlast
  rw [digits_eq hb, List.length_reverse, List.head?_reverse, List.getLast?_eq_getElem?, hlength,
    Nat.add_sub_cancel, List.getElem?_eq_getElem (by omega), hlast]
  exact ⟨rfl, rfl⟩

end Text

/-! ## Base58 -/

namespace Base58

open Text

theorem map_toNat_bytesOfDigits (ds : List Nat) :
    (bytesOfDigits ds).map UInt8.toNat = rebase 58 256 ds := by
  have hbytes : bytesOfDigits ds = (rebase 58 256 ds).map UInt8.ofNat := by
    simp [bytesOfDigits, rebase]
  rw [hbytes, List.map_map]
  conv_rhs => rw [← List.map_id (rebase 58 256 ds)]
  apply List.map_congr_left
  intro d hd
  have hlt : d < 256 := rebase_lt (by decide) hd
  simp [hlt]

theorem length_takeWhile_toNat (bs : List UInt8) :
    ((bs.map UInt8.toNat).takeWhile (· == 0)).length = (bs.takeWhile (· == 0)).length := by
  rw [List.takeWhile_map, List.length_map]
  congr 2
  funext byte
  simp [← UInt8.toNat_inj]

theorem digitsOfBytes_eq (bs : List UInt8) :
    digitsOfBytes bs = rebase 256 58 (bs.map UInt8.toNat) := by
  rw [digitsOfBytes, rebase, length_takeWhile_toNat]

/-- Digits are found again from their bytes. -/
theorem digitsOfBytes_bytesOfDigits {ds : List Nat} (hlt : ∀ d ∈ ds, d < 58) :
    digitsOfBytes (bytesOfDigits ds) = ds := by
  rw [digitsOfBytes_eq, map_toNat_bytesOfDigits, rebase_rebase (by decide) (by decide) hlt]

/-- Bytes are found again from their digits. -/
theorem bytesOfDigits_digitsOfBytes (bs : List UInt8) : bytesOfDigits (digitsOfBytes bs) = bs := by
  have hlt : ∀ d ∈ bs.map UInt8.toNat, d < 256 := by
    intro d hd
    obtain ⟨byte, _, rfl⟩ := List.mem_map.mp hd
    exact byte.toNat_lt
  apply List.map_injective_iff.mpr (fun _ _ => UInt8.toNat_inj.mp)
  rw [map_toNat_bytesOfDigits, digitsOfBytes_eq, rebase_rebase (by decide) (by decide) hlt]

theorem alphabet_eq : alphabet = [
    '1', '2', '3', '4', '5', '6', '7', '8', '9', 'A', 'B', 'C', 'D', 'E', 'F', 'G', 'H', 'J', 'K',
    'L', 'M', 'N', 'P', 'Q', 'R', 'S', 'T', 'U', 'V', 'W', 'X', 'Y', 'Z', 'a', 'b', 'c', 'd', 'e',
    'f', 'g', 'h', 'i', 'j', 'k', 'm', 'n', 'o', 'p', 'q', 'r', 's', 't', 'u', 'v', 'w', 'x', 'y',
    'z'] := by
  rfl

theorem length_alphabet : alphabet.length = 58 := by
  rw [alphabet_eq]
  rfl

theorem nodup_alphabet : alphabet.Nodup := by
  rw [alphabet_eq]
  decide +kernel

theorem digitChar_eq {d : Nat} (hd : d < alphabet.length) : digitChar d = alphabet[d] := by
  simp [digitChar, hd]

theorem digitOf?_digitChar {d : Nat} (hd : d < 58) : digitOf? (digitChar d) = some d := by
  have hlt : d < alphabet.length := by rwa [length_alphabet]
  rw [digitChar_eq hlt]
  refine List.idxOf?_eq_some_iff.mpr ⟨hlt, rfl, ?_⟩
  intro j hj hsame
  have hindex := (List.Nodup.getElem_inj_iff nodup_alphabet).mp hsame
  omega

theorem digitOf?_eq_some {x : Char} {d : Nat} (h : digitOf? x = some d) :
    d < 58 ∧ digitChar d = x := by
  obtain ⟨hd, hx, _⟩ := List.idxOf?_eq_some_iff.mp h
  rw [digitChar_eq hd, ← length_alphabet]
  exact ⟨hd, hx⟩

/-- The digits are all ASCII characters, so a character is refused where it is no digit. -/
theorem offence?_eq_none {x : Char} {i : Nat} : offence? x i = none ↔ ∃ d, digitOf? x = some d := by
  have hascii : alphabet.all (fun x => x.toNat < 128) = true := by
    rw [alphabet_eq]
    decide
  simp only [List.all_eq_true, decide_eq_true_eq] at hascii
  constructor
  · intro h
    unfold offence? at h
    split at h
    · cases h
    · split at h
      · cases h
      · rename_i d hd
        exact ⟨d, hd⟩
  · rintro ⟨d, hd⟩
    have hx : x.toNat < 128 := by
      obtain ⟨_, rfl, _⟩ := List.idxOf?_eq_some_iff.mp hd
      exact hascii _ (List.getElem_mem _)
    unfold offence?
    rw [if_neg (by omega), hd]

/-- A text is read where it is written in digits. -/
theorem decode_eq_ok {text : String} {bs : List UInt8} :
    decode text = .ok bs ↔
      ∃ ds, (∀ d ∈ ds, d < 58) ∧ text = String.ofList (ds.map digitChar) ∧
        bs = bytesOfDigits ds := by
  constructor
  · intro h
    unfold decode at h
    dsimp only at h
    split at h
    · cases h
    · rename_i hnone
      cases h
      have hdigit : ∀ x ∈ text.toList, ∃ d, digitOf? x = some d := by
        intro x hx
        obtain ⟨i, hi⟩ := List.mem_iff_getElem?.mp hx
        have hmem : (x, i) ∈ text.toList.zipIdx := List.mk_mem_zipIdx_iff_getElem?.mpr hi
        exact offence?_eq_none.mp (List.findSome?_eq_none_iff.mp hnone (x, i) hmem)
      refine ⟨text.toList.filterMap digitOf?, ?_, ?_, rfl⟩
      · intro d hd
        obtain ⟨x, _, hx⟩ := List.mem_filterMap.mp hd
        exact (digitOf?_eq_some hx).1
      · have hback : ∀ x ∈ text.toList, (digitOf? x).map digitChar = some x := by
          intro x hx
          obtain ⟨d, hd⟩ := hdigit x hx
          rw [hd, Option.map_some, (digitOf?_eq_some hd).2]
        rw [List.map_filterMap, List.filterMap_congr hback, List.filterMap_some,
          String.ofList_toList]
  · rintro ⟨ds, hlt, rfl, rfl⟩
    have hdigits : (ds.map digitChar).filterMap digitOf? = ds := by
      rw [List.filterMap_map, List.filterMap_congr (g := some), List.filterMap_some]
      intro d hd
      exact digitOf?_digitChar (hlt d hd)
    unfold decode
    simp only [String.toList_ofList, hdigits]
    split
    · rename_i e he
      obtain ⟨⟨x, i⟩, hmem, hoffence⟩ := List.exists_of_findSome?_eq_some he
      obtain ⟨d, hd, rfl⟩ := List.mem_map.mp (List.fst_mem_of_mem_zipIdx hmem)
      have hnone : offence? (digitChar d) i = none :=
        offence?_eq_none.mpr ⟨d, digitOf?_digitChar (hlt d hd)⟩
      cases hnone.symm.trans hoffence
    · rfl

/-- Bytes and their text determine each other. -/
theorem decode_eq_ok_iff {text : String} {bs : List UInt8} :
    decode text = .ok bs ↔ text = encode bs := by
  rw [decode_eq_ok]
  constructor
  · rintro ⟨ds, hlt, rfl, rfl⟩
    rw [encode, digitsOfBytes_bytesOfDigits hlt]
  · rintro rfl
    refine ⟨digitsOfBytes bs, ?_, rfl, (bytesOfDigits_digitsOfBytes bs).symm⟩
    intro d hd
    rw [digitsOfBytes_eq] at hd
    exact rebase_lt (by decide) hd

/-! ### What a text spells -/

/-- The characters spell the bytes: each zero byte in front is a '1' in front, and the characters
stand for the same number in base 58 as the bytes in base 256. -/
structure Spells (cs : List Char) (bs : Bytes) : Prop where
  mem_alphabet : ∀ x ∈ cs, x ∈ alphabet
  zeros : (cs.takeWhile (· == '1')).length = (bs.takeWhile (· == 0)).length
  number : ofDigits 58 (cs.map (alphabet.idxOf ·)) = Wire.valueOf bs

theorem valueOf_eq_ofDigits (bs : Bytes) : Wire.valueOf bs = ofDigits 256 (bs.map UInt8.toNat) :=
  List.foldl_map.symm

theorem digitChar_mem_and_idxOf {d : Nat} (hd : d < 58) :
    digitChar d ∈ alphabet ∧ alphabet.idxOf (digitChar d) = d := by
  have hlt : d < alphabet.length := by rwa [length_alphabet]
  rw [digitChar_eq hlt]
  exact ⟨List.getElem_mem hlt, nodup_alphabet.idxOf_getElem d hlt⟩

theorem exists_digitChar {x : Char} (hx : x ∈ alphabet) : ∃ d < 58, digitChar d = x := by
  obtain ⟨d, hd, rfl⟩ := List.mem_iff_getElem.mp hx
  rw [← length_alphabet]
  exact ⟨d, hd, digitChar_eq hd⟩

theorem exists_map_digitChar {cs : List Char} (h : ∀ x ∈ cs, x ∈ alphabet) :
    ∃ ds : List Nat, (∀ d ∈ ds, d < 58) ∧ ds.map digitChar = cs := by
  induction cs with
  | nil => exact ⟨[], by simp, rfl⟩
  | cons x cs ih =>
    obtain ⟨hx, hcs⟩ := List.forall_mem_cons.mp h
    obtain ⟨d, hd, rfl⟩ := exists_digitChar hx
    obtain ⟨ds, hds, rfl⟩ := ih hcs
    exact ⟨d :: ds, List.forall_mem_cons.mpr ⟨hd, hds⟩, rfl⟩

section

variable {ds : List Nat} (hlt : ∀ d ∈ ds, d < 58)
include hlt

theorem map_idxOf_digitChar : (ds.map digitChar).map (alphabet.idxOf ·) = ds := by
  rw [List.map_map]
  conv_rhs => rw [← List.map_id ds]
  apply List.map_congr_left
  intro d hd
  exact (digitChar_mem_and_idxOf (hlt d hd)).2

theorem length_takeWhile_digitChar :
    ((ds.map digitChar).takeWhile (· == '1')).length = (ds.takeWhile (· == 0)).length := by
  induction ds with
  | nil => rfl
  | cons d ds ih =>
    obtain ⟨hd, hds⟩ := List.forall_mem_cons.mp hlt
    have hone : digitChar d = '1' ↔ d = 0 := by
      constructor
      · intro h
        rw [← (digitChar_mem_and_idxOf hd).2, h, alphabet_eq]
        rfl
      · rintro rfl
        rw [digitChar, alphabet_eq]
        rfl
    by_cases hzero : d = 0
    · rw [List.map_cons, hone.mpr hzero]
      simp [hzero, ih hds]
    · have hchar := mt hone.mp hzero
      simp [hzero, hchar]

theorem spells_digits {bs : Bytes} : Spells (ds.map digitChar) bs ↔ ds = digitsOfBytes bs := by
  rw [digitsOfBytes_eq, eq_rebase_iff (by decide) hlt, length_takeWhile_toNat,
    ← valueOf_eq_ofDigits, ← length_takeWhile_digitChar hlt]
  have hdigits : ofDigits 58 ((ds.map digitChar).map (alphabet.idxOf ·)) = ofDigits 58 ds :=
    congrArg (ofDigits 58) (map_idxOf_digitChar hlt)
  constructor
  · intro h
    exact ⟨h.zeros, hdigits.symm.trans h.number⟩
  · rintro ⟨hzeros, hnumber⟩
    refine ⟨?_, hzeros, hdigits.trans hnumber⟩
    intro x hx
    obtain ⟨d, hd, rfl⟩ := List.mem_map.mp hx
    exact (digitChar_mem_and_idxOf (hlt d hd)).1

end

/-- The text that is written for bytes is the one that spells them. -/
theorem spells_iff {text : String} {bs : Bytes} : Spells text.toList bs ↔ text = encode bs := by
  constructor
  · intro h
    obtain ⟨ds, hlt, hds⟩ := exists_map_digitChar h.mem_alphabet
    rw [← hds, spells_digits hlt] at h
    rw [encode, ← h, hds, String.ofList_toList]
  · rintro rfl
    have hlt : ∀ d ∈ digitsOfBytes bs, d < 58 := by
      intro d hd
      rw [digitsOfBytes_eq] at hd
      exact rebase_lt (by decide) hd
    rw [encode, String.toList_ofList, spells_digits hlt]

/-- A '1' in front is one more zero byte in front. -/
theorem Spells.zeros_append {cs : List Char} {bs : Bytes} (h : Spells cs bs) (k : Nat) :
    Spells (List.replicate k '1' ++ cs) (List.replicate k 0 ++ bs) where
  mem_alphabet x hx := by
    rcases List.mem_append.mp hx with hx | hx
    · rw [(List.mem_replicate.mp hx).2, alphabet_eq]
      simp
    · exact h.mem_alphabet x hx
  zeros := by
    rw [List.takeWhile_append_of_pos (by simp), List.takeWhile_append_of_pos (by simp),
      List.length_append, List.length_append, h.zeros, List.length_replicate, List.length_replicate]
  number := by
    have hone : alphabet.idxOf '1' = 0 := by
      rw [alphabet_eq]
      rfl
    rw [List.map_append, List.map_replicate, hone, ofDigits_zeros_append, h.number,
      valueOf_eq_ofDigits, valueOf_eq_ofDigits, List.map_append, List.map_replicate,
      UInt8.toNat_zero, ofDigits_zeros_append]

theorem encode_zeros_append (k : Nat) (bs : Bytes) :
    encode (List.replicate k 0 ++ bs) =
      String.ofList (List.replicate k '1' ++ (encode bs).toList) := by
  have hspells : Spells (encode bs).toList bs := spells_iff.mpr rfl
  apply Eq.symm
  rw [← spells_iff, String.toList_ofList]
  exact hspells.zeros_append k

/-- Where all numbers with a byte in front lie between two multiples of a power of 58, the text has
one length and one first character, whatever the other bytes are. -/
theorem encode_of_band {byte : UInt8} {rest : Bytes} {d k : Nat} (hbyte : byte ≠ 0) (hpos : 0 < d)
    (hd : d < 58) (hlow : d * 58 ^ k ≤ byte.toNat * 256 ^ rest.length)
    (hhigh : (byte.toNat + 1) * 256 ^ rest.length ≤ (d + 1) * 58 ^ k) :
    (encode (byte :: rest)).length = k + 1 ∧
      (encode (byte :: rest)).toList.head? = some (digitChar d) := by
  have hvalue := Wire.valueOf_cons byte rest
  have hrest := Wire.valueOf_lt rest
  rw [Nat.add_mul, Nat.one_mul] at hhigh
  obtain ⟨hlength, hhead⟩ : (digits 58 (Wire.valueOf (byte :: rest))).length = k + 1 ∧
      (digits 58 (Wire.valueOf (byte :: rest))).head? = some d :=
    digits_of_band (by decide) hpos hd (by omega) (by omega)
  have hdigits : digitsOfBytes (byte :: rest) = digits 58 (Wire.valueOf (byte :: rest)) := by
    rw [digitsOfBytes, valueOf_eq_ofDigits, List.takeWhile_cons_of_neg (by simpa using hbyte)]
    rfl
  rw [encode, hdigits, String.length_ofList, String.toList_ofList, List.length_map,
    List.head?_map, hhead]
  exact ⟨hlength, rfl⟩

theorem not_isBlank_of_mem_alphabet {x : Char} (hx : x ∈ alphabet) : isBlank x = false := by
  have hall : alphabet.all (fun x => !isBlank x) = true := by
    rw [alphabet_eq]
    decide
  simpa using List.all_eq_true.mp hall x hx

end Base58

/-! ## Addresses -/

namespace Address

variable {a : Address}

theorem byte_of_ofByte? {byte : UInt8} {v : Version} (h : Version.ofByte? byte = some v) :
    v.byte = byte := by
  unfold Version.ofByte? at h
  split at h
  · cases h
    exact Eq.symm ‹_›
  · split at h
    · cases h
      exact Eq.symm ‹_›
    · cases h

theorem body_of_ofByte? {byte : UInt8} {v : Version} {rest : Bytes}
    (hv : Version.ofByte? byte = some v) (h : (rest.take 20).toArray.size = 20) :
    body ⟨v, ⟨(rest.take 20).toArray, h⟩⟩ = byte :: rest.take 20 := by
  simp [body, byte_of_ofByte? hv]

theorem ofBytes_eq_ok {bs : Bytes} : ofBytes bs = .ok a ↔ bs = a.toBytes := by
  constructor
  · intro h
    unfold ofBytes at h
    split at h
    · cases h
    · rename_i byte rest
      split at h
      · split at h
        · cases h
        · rename_i v hv
          dsimp only at h
          split at h
          · rename_i hsum
            cases h
            rw [toBytes, hsum, body_of_ofByte? hv]
            simp
          · cases h
      · cases h
  · rintro rfl
    exact ofBytes_toBytes a

/-- An address and its text determine each other. -/
theorem parse_eq_ok {text : String} : parse text = .ok a ↔ text = a.text := by
  rw [Address.text, ← Base58.decode_eq_ok_iff]
  unfold parse
  cases Base58.decode text with
  | ok bs => simp [ofBytes_eq_ok]
  | error e => simp

end Address

end Pledge
