-- The three forms of an address: twenty-five bytes, the words of a register
-- and a text. Each of them is read from what is written for an address and
-- from nothing else, and what is wrong with bytes is named in a fixed order.
-- The first letter of the text tells the kind of account.
import Pledge.Proofs.Texts

namespace Pledge

/-! ## Bytes -/

namespace Address

variable {bs : Bytes}

/-- Why bytes are refused: the length is looked at first, then the version, then the checksum. -/
inductive Refused : Bytes → Error → Prop where
  | invalidLength {bs : Bytes} (hlength : bs.length ≠ 25) : Refused bs (.invalidLength bs.length)
  | unknownVersion {byte : UInt8} {rest : Bytes} (hlength : rest.length = 24) (haccount : byte ≠ 58)
    (hautomated : byte ≠ 23) : Refused (byte :: rest) (.unknownVersion byte)
  | checksumMismatch {byte : UInt8} {rest : Bytes} (hlength : rest.length = 24)
    (hversion : byte = 58 ∨ byte = 23)
    (hsum : checksum ((byte :: rest).take 21) ≠ (byte :: rest).drop 21) :
    Refused (byte :: rest) .checksumMismatch

theorem ofByte?_eq_none {byte : UInt8} : Version.ofByte? byte = none ↔ byte ≠ 58 ∧ byte ≠ 23 := by
  unfold Version.ofByte?
  split
  · simp_all
  · split <;> simp_all

theorem ofByte?_eq_some {byte : UInt8} {v : Version} (h : Version.ofByte? byte = some v) :
    byte = 58 ∨ byte = 23 := by
  cases v with
  | account => exact .inl (byte_of_ofByte? h).symm
  | automated => exact .inr (byte_of_ofByte? h).symm

/-- Bytes are refused for the first cause that there is. -/
theorem ofBytes_eq_error {e : Error} : ofBytes bs = .error e ↔ Refused bs e := by
  constructor
  · intro h
    unfold ofBytes at h
    split at h
    · cases h
      exact .invalidLength (by decide)
    · rename_i byte rest
      split at h
      · rename_i hlength
        split at h
        · rename_i hnone
          cases h
          obtain ⟨haccount, hautomated⟩ := ofByte?_eq_none.mp hnone
          exact .unknownVersion hlength haccount hautomated
        · rename_i v hv
          dsimp only at h
          split at h
          · cases h
          · rename_i hsum
            cases h
            rw [body_of_ofByte? hv] at hsum
            exact .checksumMismatch hlength (ofByte?_eq_some hv) hsum
      · rename_i hlength
        cases h
        exact .invalidLength (by simpa using hlength)
  · intro h
    cases h with
    | invalidLength hlength =>
      cases bs with
      | nil => rfl
      | cons byte rest => exact dif_neg (by simpa using hlength)
    | unknownVersion hlength haccount hautomated =>
      simp only [ofBytes, hlength, dif_pos, ofByte?_eq_none.mpr ⟨haccount, hautomated⟩]
    | @checksumMismatch byte rest hlength hversion hsum =>
      obtain ⟨v, hv⟩ : ∃ v, Version.ofByte? byte = some v := by
        rcases hversion with rfl | rfl
        · exact ⟨.account, rfl⟩
        · exact ⟨.automated, rfl⟩
      simp only [ofBytes, hlength, dif_pos, hv, body_of_ofByte? hv]
      exact if_neg hsum

end Address

/-! ## Words -/

theorem Wire.scalarBytes_append_inj {w w' : Word} {bs bs' : Bytes} :
    scalarBytes w ++ bs = scalarBytes w' ++ bs' ↔ w = w' ∧ bs = bs' := by
  constructor
  · intro h
    obtain ⟨hword, hrest⟩ := List.append_inj h (by rw [length_scalarBytes, length_scalarBytes])
    refine ⟨?_, hrest⟩
    rw [← scalarOf_scalarBytes w, hword, scalarOf_scalarBytes]
  · rintro ⟨rfl, rfl⟩
    rfl

/-- The first byte of a word is what is left of it without the other seven. -/
theorem Wire.take_scalarBytes_inj {w w' : Word} :
    (scalarBytes w).take 1 = (scalarBytes w').take 1 ↔ w.toInt / 2 ^ 56 = w'.toInt / 2 ^ 56 := by
  have hfirst : ∀ w : Word, (scalarBytes w).take 1 = [UInt8.ofNat (w.toUInt64.toNat / 2 ^ 56)] := by
    intro w
    rfl
  have hint : ∀ w : Word, w.toInt = (w.toUInt64.toNat : Int).bmod (2 ^ 64) := by
    intro w
    exact BitVec.toInt_eq_toNat_bmod _
  have hw := w.toUInt64.toNat_lt
  have hw' := w'.toUInt64.toNat_lt
  rw [hfirst, hfirst, List.cons.injEq, ← UInt8.toNat_inj, hint, hint, Int.bmod_def, Int.bmod_def]
  simp only [UInt8.toNat_ofNat', and_true]
  omega

theorem Quad.take_bytesOfWords (q : Quad) :
    (Wire.bytesOfWords q.toList).take 25 = Wire.scalarBytes q.first ++ (Wire.scalarBytes q.second ++
      (Wire.scalarBytes q.third ++ (Wire.scalarBytes q.fourth).take 1)) := by
  have hlength : ∀ w : Word, (Wire.scalarBytes w).length = 8 := Wire.length_scalarBytes
  rw [q.toList_eq]
  simp [Wire.bytesOfWords, List.take_append, List.take_of_length_le, hlength]

/-- The first twenty-five bytes of four words are three words and the first byte of the fourth. -/
theorem Quad.take_bytesOfWords_inj {q q' : Quad} :
    (Wire.bytesOfWords q.toList).take 25 = (Wire.bytesOfWords q'.toList).take 25 ↔
      q.first = q'.first ∧ q.second = q'.second ∧ q.third = q'.third ∧
        q.fourth.toInt / 2 ^ 56 = q'.fourth.toInt / 2 ^ 56 := by
  rw [q.take_bytesOfWords, q'.take_bytesOfWords, Wire.scalarBytes_append_inj,
    Wire.scalarBytes_append_inj, Wire.scalarBytes_append_inj, Wire.take_scalarBytes_inj]

namespace Address

theorem ofWords_eq_ok {q : Quad} {a : Address} :
    ofWords q = .ok a ↔ (Wire.bytesOfWords q.toList).take 25 = a.toBytes :=
  ofBytes_eq_ok

theorem take_bytesOfWords_toWords (a : Address) :
    (Wire.bytesOfWords a.toWords.toList).take 25 = a.toBytes :=
  ofWords_eq_ok.mp a.ofWords_toWords

/-! ## The law of bytes and words -/

/-- Bytes are accepted where they are those of an address made from a version and a payload, which
are then found in them, and they are refused with the first thing that is wrong. Four words hold an
address where they are its words but for the last seven bytes, which do not matter. -/
theorem accepted_addresses_are_the_made_ones :
    (∀ bs, (∃ a, ofBytes bs = .ok a) ↔ ∃ v p, bs = toBytes ⟨v, p⟩) ∧
    (∀ bs a, ofBytes bs = .ok a →
      a.toBytes = bs ∧ (∀ v p, bs = toBytes ⟨v, p⟩ → v = a.version ∧ p = a.payload) ∧
      a.version = (if bs.head? = some 23 then .automated else .account) ∧
      a.payload.toList = (bs.drop 1).take 20) ∧
    (∀ bs e, ofBytes bs = .error e ↔ Refused bs e) ∧
    (∀ a : Address, ofWords a.toWords = .ok a) ∧
    (∀ (q : Quad) (a : Address), ofWords q = .ok a ↔
      q.first = a.toWords.first ∧ q.second = a.toWords.second ∧ q.third = a.toWords.third ∧
        q.fourth.toInt / 2 ^ 56 = a.toWords.fourth.toInt / 2 ^ 56) ∧
    ∀ q q' : Quad, (Wire.bytesOfWords q.toList).take 25 = (Wire.bytesOfWords q'.toList).take 25 →
      ofWords q = ofWords q' := by
  refine ⟨?_, ?_, fun bs e => ofBytes_eq_error, ofWords_toWords, ?_, ?_⟩
  · intro bs
    constructor
    · rintro ⟨⟨v, p⟩, h⟩
      exact ⟨v, p, ofBytes_eq_ok.mp h⟩
    · rintro ⟨v, p, rfl⟩
      exact ⟨⟨v, p⟩, ofBytes_toBytes _⟩
  · intro bs a h
    obtain rfl := ofBytes_eq_ok.mp h
    refine ⟨rfl, ?_, ?_, ?_⟩
    · -- Bytes that are made in two ways would be read in two ways.
      intro v p hmade
      rw [hmade, ofBytes_toBytes] at h
      cases h
      exact ⟨rfl, rfl⟩
    · obtain ⟨version, payload⟩ := a
      cases version <;> rfl
    · have htake : (a.payload.toList ++ checksum a.body).take 20 = a.payload.toList :=
        List.take_left' (by simp)
      exact htake.symm
  · intro q a
    rw [ofWords_eq_ok, ← a.take_bytesOfWords_toWords, Quad.take_bytesOfWords_inj]
  · intro q q' h
    exact congrArg ofBytes h

end Address

/-! ## Texts -/

/-- A text with a blank in it is not Base58. -/
theorem Base58.decode_of_blank {text : String} {x : Char} (hx : x ∈ text.toList)
    (hblank : Text.isBlank x = true) : ∃ reason, decode text = .error reason := by
  cases h : decode text with
  | error reason => exact ⟨reason, rfl⟩
  | ok bs =>
    have hmem := (spells_iff.mpr (decode_eq_ok_iff.mp h)).mem_alphabet x hx
    rw [not_isBlank_of_mem_alphabet hmem] at hblank
    cases hblank

namespace Address

theorem parse_of_error {text : String} {reason : Base58.Error}
    (h : Base58.decode text = .error reason) : parse text = .error (.notBase58 reason) := by
  rw [parse, h]

/-- A '1' in front of the text of an address makes it too long. -/
theorem parse_ones_append (a : Address) {k : Nat} (hk : 0 < k) :
    parse (String.ofList (List.replicate k '1' ++ a.text.toList)) =
      .error (.invalidLength (25 + k)) := by
  have hlength : (List.replicate k 0 ++ a.toBytes).length = 25 + k := by
    rw [List.length_append, List.length_replicate, a.length_toBytes, Nat.add_comm]
    rfl
  rw [parse, Address.text, ← Base58.encode_zeros_append, Base58.decode_eq_ok_iff.mpr rfl]
  dsimp only
  rw [ofBytes_eq_error, ← hlength]
  exact .invalidLength (by omega)

/-- An address is read from its text and from no other, and that is the text that spells its bytes.
So blanks are refused wherever they are, and so is each '1' too many in front. -/
theorem an_address_has_one_text :
    (∀ text a, parse text = .ok a ↔ text = a.text) ∧
    (∀ text (a : Address), text = a.text ↔ Base58.Spells text.toList a.toBytes) ∧
    (∀ a : Address, parse a.text = .ok a) ∧
    (∀ text text' a, parse text = .ok a → parse text' = .ok a → text = text') ∧
    (∀ text : String, (∃ x ∈ text.toList, Text.isBlank x = true) →
      ∃ reason, parse text = .error (.notBase58 reason)) ∧
    ∀ (a : Address) (k : Nat), 0 < k →
      parse (String.ofList (List.replicate k '1' ++ a.text.toList)) =
        .error (.invalidLength (25 + k)) := by
  refine ⟨fun _ _ => parse_eq_ok, fun _ _ => Base58.spells_iff.symm, ?_, ?_, ?_, ?_⟩
  · intro a
    exact parse_eq_ok.mpr rfl
  · intro text text' a h h'
    rw [parse_eq_ok.mp h, parse_eq_ok.mp h']
  · rintro text ⟨x, hx, hblank⟩
    obtain ⟨reason, hreason⟩ := Base58.decode_of_blank hx hblank
    exact ⟨reason, parse_of_error hreason⟩
  · intro a k hk
    exact parse_ones_append a hk

/-! ## First letters -/

/-- The letter that stands for a version. -/
def Version.letter : Version → Char
  | account => 'Q'
  | automated => 'A'

/-- A text of thirty-four characters with the letter in front. -/
def Lettered (letter : Char) (text : String) : Prop :=
  text.length = 34 ∧ text.toList.head? = some letter

/-- The numbers that begin with a version byte all lie in the band of one digit, so the letter and
the length follow from the version alone. -/
theorem lettered_of_version (v : Version) {rest : Bytes} (h : rest.length = 24) :
    Lettered v.letter (Base58.encode (v.byte :: rest)) := by
  have hletters : Base58.digitChar 23 = 'Q' ∧ Base58.digitChar 9 = 'A' := by
    rw [Base58.digitChar, Base58.digitChar, Base58.alphabet_eq]
    exact ⟨rfl, rfl⟩
  cases v with
  | account =>
    rw [Version.letter, ← hletters.1]
    apply Base58.encode_of_band (by decide) (by decide) (by decide)
    · rw [h]
      decide
    · rw [h]
      decide
  | automated =>
    rw [Version.letter, ← hletters.2]
    apply Base58.encode_of_band (by decide) (by decide) (by decide)
    · rw [h]
      decide
    · rw [h]
      decide

/-- The text of every account has thirty-four characters, and the first is Q; that of every
automated transaction has as many, and the first is A. The checksum has no part in it: the same
holds with any four bytes in its place. -/
theorem the_first_letter_tells_the_version (payload : Vector UInt8 20) :
    Lettered 'Q' (text ⟨.account, payload⟩) ∧ Lettered 'A' (text ⟨.automated, payload⟩) ∧
    ∀ sum : Bytes, sum.length = 4 →
      Lettered 'Q' (Base58.encode (body ⟨.account, payload⟩ ++ sum)) ∧
      Lettered 'A' (Base58.encode (body ⟨.automated, payload⟩ ++ sum)) := by
  have hrest : ∀ sum : Bytes, sum.length = 4 → (payload.toList ++ sum).length = 24 := by
    intro sum hsum
    rw [List.length_append, Vector.length_toList, hsum]
  have hall : ∀ (v : Version) (sum : Bytes), sum.length = 4 →
      Lettered v.letter (Base58.encode (body ⟨v, payload⟩ ++ sum)) := by
    intro v sum hsum
    exact lettered_of_version v (hrest sum hsum)
  refine ⟨?_, ?_, ?_⟩
  · exact hall .account _ (length_checksum _)
  · exact hall .automated _ (length_checksum _)
  · intro sum hsum
    exact ⟨hall .account sum hsum, hall .automated sum hsum⟩

end Address

end Pledge
