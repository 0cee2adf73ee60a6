-- The wire form loses nothing: numbers, words in a row and addresses are
-- found again from their bytes.
import Mathlib.Algebra.Order.Ring.Int
import Pledge.Address

namespace Pledge

/-! ## Checks in a row -/

theorem Except.bind_eq_ok {ε α β : Type} {x : Except ε α} {f : α → Except ε β} {b : β} :
    (x >>= f) = .ok b ↔ ∃ a, x = .ok a ∧ f a = .ok b := by
  cases x with
  | ok a =>
    show f a = .ok b ↔ _
    simp
  | error e =>
    show Except.error e = .ok b ↔ _
    simp

theorem Except.bind_eq_error {ε α β : Type} {x : Except ε α} {f : α → Except ε β} {e : ε} :
    x >>= f = .error e ↔ x = .error e ∨ ∃ a, x = .ok a ∧ f a = .error e := by
  cases x with
  | error e' =>
    constructor
    · intro h
      cases h
      exact .inl rfl
    · rintro (h | ⟨a, h, _⟩) <;> cases h
      rfl
  | ok a =>
    constructor
    · intro h
      exact .inr ⟨a, rfl, h⟩
    · rintro (h | ⟨a', h, h'⟩) <;> cases h
      exact h'

theorem Except.map_eq_ok {ε α β : Type} {f : α → β} {x : Except ε α} {b : β} :
    f <$> x = .ok b ↔ ∃ a, x = .ok a ∧ f a = b := by
  cases x with
  | ok a =>
    show Except.ok (f a) = .ok b ↔ _
    simp
  | error e =>
    show Except.error e = .ok b ↔ _
    simp

theorem Except.map_eq_error {ε α β : Type} {f : α → β} {x : Except ε α} {e : ε} :
    f <$> x = .error e ↔ x = .error e := by
  cases x with
  | ok a =>
    show Except.ok (f a) = .error e ↔ _
    simp
  | error e' =>
    show Except.error e' = .error e ↔ _
    simp

/-- A check is passed where its condition does not hold. -/
theorem Except.check_eq_ok {ε α : Type} {p : Prop} [Decidable p] {e : ε} {x : Except ε α} {a : α} :
    (if p then throw e else x) = .ok a ↔ ¬ p ∧ x = .ok a := by
  show (if p then .error e else x) = Except.ok a ↔ _
  by_cases hp : p
  · simp [hp]
  · simp [hp]

theorem Except.mapError_eq_ok {ε ε' α : Type} {f : ε → ε'} {x : Except ε α} {a : α} :
    x.mapError f = .ok a ↔ x = .ok a := by
  cases x with
  | ok b =>
    show Except.ok b = .ok a ↔ _
    simp
  | error e =>
    show Except.error (f e) = .ok a ↔ _
    simp

namespace Wire

/-! ## Big-endian numbers -/

theorem bigEndian_succ (width n : Nat) :
    bigEndian (width + 1) n = UInt8.ofNat (n / 256 ^ width) :: bigEndian width n := rfl

theorem foldl_valueOf (bs : Bytes) (n : Nat) :
    bs.foldl (fun n b => n * 256 + b.toNat) n = n * 256 ^ bs.length + valueOf bs := by
  induction bs generalizing n with
  | nil => simp [valueOf]
  | cons b bs ih =>
    have hb := ih (n * 256 + b.toNat)
    have h0 := ih (0 * 256 + b.toNat)
    simp only [valueOf, List.foldl_cons, List.length_cons] at hb h0 ⊢
    rw [hb, h0, Nat.pow_succ, Nat.zero_mul, Nat.zero_add, Nat.add_mul, Nat.mul_assoc,
      Nat.mul_comm 256, Nat.add_assoc]

theorem valueOf_cons (b : UInt8) (bs : Bytes) :
    valueOf (b :: bs) = b.toNat * 256 ^ bs.length + valueOf bs := by
  have h := foldl_valueOf bs b.toNat
  rw [← h, valueOf, List.foldl_cons, Nat.zero_mul, Nat.zero_add]

theorem valueOf_lt (bs : Bytes) : valueOf bs < 256 ^ bs.length := by
  induction bs with
  | nil => decide
  | cons b bs ih =>
    have hb := b.toNat_lt
    rw [valueOf_cons, List.length_cons, Nat.pow_succ]
    have := Nat.mul_le_mul_right (256 ^ bs.length) (Nat.le_of_lt_succ hb)
    omega

/-- The bytes of a number stand for it, as far as they go. -/
theorem valueOf_bigEndian (width n : Nat) : valueOf (bigEndian width n) = n % 256 ^ width := by
  induction width with
  | zero => simp [bigEndian, valueOf, Nat.mod_one]
  | succ width ih =>
    rw [bigEndian_succ, valueOf_cons, ih, length_bigEndian, Nat.mod_pow_succ, Nat.mul_comm,
      Nat.add_comm]
    simp

/-- What lies above the width does not matter. -/
theorem bigEndian_add_mul (width k n : Nat) :
    bigEndian width (k * 256 ^ width + n) = bigEndian width n := by
  induction width generalizing k with
  | zero => rfl
  | succ width ih =>
    have hpow : k * 256 ^ (width + 1) = k * 256 * 256 ^ width := by
      rw [Nat.pow_succ, Nat.mul_assoc, Nat.mul_comm 256]
    have hdiv : (k * 256 * 256 ^ width + n) / 256 ^ width = n / 256 ^ width + 256 * k := by
      rw [Nat.add_comm, Nat.add_mul_div_right _ _ (Nat.pow_pos (by decide)), Nat.mul_comm k]
    have hbyte : UInt8.ofNat (n / 256 ^ width + 256 * k) = UInt8.ofNat (n / 256 ^ width) := by
      apply UInt8.toNat_inj.mp
      simp
    rw [bigEndian_succ, bigEndian_succ, hpow, ih, hdiv, hbyte]

/-- A byte string is found again from its number and its length. -/
theorem bigEndian_valueOf (bs : Bytes) : bigEndian bs.length (valueOf bs) = bs := by
  induction bs with
  | nil => rfl
  | cons b bs ih =>
    have hhead : (b.toNat * 256 ^ bs.length + valueOf bs) / 256 ^ bs.length = b.toNat := by
      rw [Nat.add_comm, Nat.add_mul_div_right _ _ (Nat.pow_pos (by decide)),
        Nat.div_eq_of_lt (valueOf_lt bs), Nat.zero_add]
    rw [valueOf_cons, List.length_cons, bigEndian_succ, hhead, bigEndian_add_mul, ih]
    simp

/-! ## Integers -/

variable {α : Type} [Scalar α]

theorem scalarOf_scalarBytes (a : α) : scalarOf (scalarBytes a) = a := by
  have hlt : Scalar.toNat a < 256 ^ Scalar.width α := Scalar.toNat_lt a
  rw [scalarOf, scalarBytes, valueOf_bigEndian, Nat.mod_eq_of_lt hlt, Scalar.ofNat_toNat]

theorem scalarBytes_scalarOf {bs : Bytes} (h : bs.length = Scalar.width α) :
    scalarBytes (scalarOf bs : α) = bs := by
  rw [scalarOf, scalarBytes, Scalar.toNat_ofNat _ (h ▸ valueOf_lt bs), ← h, bigEndian_valueOf]

/-! ## Writing -/

section

variable {β : Type} [Encode β]

/-- A sink to which it does not matter in what pieces the bytes come. -/
class LawfulSink (σ : Type) [Sink σ] : Prop where
  write_nil : ∀ sink : σ, Sink.write sink [] = sink
  write_append : ∀ (sink : σ) (bs bs' : Bytes),
    Sink.write sink (bs ++ bs') = Sink.write (Sink.write sink bs) bs'

theorem toList_write (buffer : Array UInt8) (bs : Bytes) :
    (Sink.write buffer bs).toList = buffer.toList ++ bs := Array.toList_appendList

instance : LawfulSink (Array UInt8) where
  write_nil _ := Array.appendList_nil
  write_append buffer bs bs' := by
    apply Array.toList_inj.mp
    rw [toList_write, toList_write, toList_write, List.append_assoc]

instance : LawfulSink ByteCount where
  write_nil _ := rfl
  write_append count bs bs' := by
    show ByteCount.mk (count.total + (bs ++ bs').length) = _
    rw [List.length_append, ← Nat.add_assoc]
    rfl

theorem foldl_write {σ : Type} [Sink σ] [LawfulSink σ] (sink : σ) (pieces : List Bytes) :
    pieces.foldl Sink.write sink = Sink.write sink pieces.flatten := by
  induction pieces generalizing sink with
  | nil => exact (LawfulSink.write_nil sink).symm
  | cons piece pieces ih =>
    rw [List.foldl_cons, ih, List.flatten_cons, LawfulSink.write_append]

/-- The wire form is what is written, piece by piece. -/
theorem toBytes_eq_flatten (b : β) : toBytes b = (Encode.pieces b).flatten := by
  unfold toBytes encodeInto
  rw [foldl_write, toList_write]
  rfl

/-- A value is written as its wire form, whatever the sink. -/
theorem encodeInto_eq {σ : Type} [Sink σ] [LawfulSink σ] (sink : σ) (b : β) :
    encodeInto sink b = Sink.write sink (toBytes b) := by
  rw [toBytes_eq_flatten]
  exact foldl_write sink _

/-- A value is written behind what the buffer holds. -/
theorem toList_encodeInto (buffer : Array UInt8) (b : β) :
    (encodeInto buffer b).toList = buffer.toList ++ toBytes b := by
  rw [encodeInto_eq, toList_write]

/-- The size is that of the wire form, though nothing is built for it. -/
theorem encodedSize_eq (b : β) : encodedSize b = (toBytes b).length := by
  unfold encodedSize
  rw [encodeInto_eq]
  exact Nat.zero_add _

end

theorem toBytes_scalar (a : α) : toBytes a = scalarBytes a := by
  rw [toBytes_eq_flatten]
  exact List.append_nil _

/-! ## Reading -/

namespace Reader

variable {β γ : Type} {input rest : Bytes}

theorem bind_eq_ok {x : Reader β} {f : β → Reader γ} {c : γ} :
    (x >>= f) input = .ok c rest ↔ ∃ b mid, x input = .ok b mid ∧ f b mid = .ok c rest := by
  show EStateM.bind x f input = .ok c rest ↔ _
  unfold EStateM.bind
  cases x input with
  | ok b mid => simp
  | error e mid => simp

theorem bind_eq_error {x : Reader β} {f : β → Reader γ} {e : Error} :
    (x >>= f) input = .error e rest ↔
      x input = .error e rest ∨ ∃ b mid, x input = .ok b mid ∧ f b mid = .error e rest := by
  show EStateM.bind x f input = .error e rest ↔ _
  unfold EStateM.bind
  cases x input with
  | ok b mid => simp
  | error e' mid => simp

theorem pure_eq_ok {b c : β} : (pure b : Reader β) input = .ok c rest ↔ b = c ∧ input = rest := by
  show EStateM.Result.ok b input = .ok c rest ↔ _
  simp

theorem pure_ne_error {b : β} {e : Error} : (pure b : Reader β) input ≠ .error e rest := by
  show EStateM.Result.ok b input ≠ .error e rest
  simp

end Reader

theorem takeBytes_eq_ok {n : Nat} {input bs rest : Bytes} :
    takeBytes n input = .ok bs rest ↔ bs.length = n ∧ input = bs ++ rest := by
  unfold takeBytes
  constructor
  · intro h
    split at h
    · cases h
    · cases h
      exact ⟨by rw [List.length_take]; omega, (List.take_append_drop n input).symm⟩
  · rintro ⟨rfl, rfl⟩
    rw [if_neg (by rw [List.length_append]; omega), List.take_left, List.drop_left]

theorem takeBytes_eq_error {n : Nat} {input rest : Bytes} {e : Error} :
    takeBytes n input = .error e rest ↔ e = .endOfInput ∧ input = rest ∧ input.length < n := by
  unfold takeBytes
  constructor
  · intro h
    split at h
    · rename_i hlt
      cases h
      exact ⟨rfl, rfl, hlt⟩
    · cases h
  · rintro ⟨rfl, rfl, hlt⟩
    rw [if_pos hlt]

/-- Values that are read from their wire form and from nothing else. -/
class Faithful (β : Type) [Encode β] [Decode β] : Prop where
  read_eq_ok : ∀ {input rest : Bytes} {b : β},
    (Decode.read : Reader β) input = .ok b rest ↔ input = toBytes b ++ rest

instance : Faithful α where
  read_eq_ok {input rest a} := by
    show (takeBytes (Scalar.width α) >>= fun bs => pure (scalarOf bs)) input = _ ↔ _
    rw [Reader.bind_eq_ok, toBytes_scalar]
    constructor
    · rintro ⟨bs, mid, htake, hpure⟩
      obtain ⟨hlen, rfl⟩ := takeBytes_eq_ok.mp htake
      obtain ⟨rfl, rfl⟩ := Reader.pure_eq_ok.mp hpure
      rw [scalarBytes_scalarOf hlen]
    · rintro rfl
      exact ⟨scalarBytes a, rest, takeBytes_eq_ok.mpr ⟨length_scalarBytes a, rfl⟩,
        Reader.pure_eq_ok.mpr ⟨scalarOf_scalarBytes a, rfl⟩⟩

/-! ## Words in a row -/

theorem wordsOnto_append {bs : Bytes} (h : bs.length = 8) (words : Array Int64) (rest : Bytes) :
    wordsOnto words (bs ++ rest) = wordsOnto (words.push (scalarOf bs)) rest := by
  match bs, h with
  | [_, _, _, _, _, _, _, _], _ => rfl

theorem wordsOnto_bytesOfWords (words : Array Int64) (ws : List Int64) :
    wordsOnto words (bytesOfWords ws) = words ++ ws.toArray := by
  induction ws generalizing words with
  | nil => simp [bytesOfWords, wordsOnto]
  | cons w ws ih =>
    have hcons : bytesOfWords (w :: ws) = scalarBytes w ++ bytesOfWords ws := rfl
    rw [hcons, wordsOnto_append (length_scalarBytes w), scalarOf_scalarBytes, ih]
    simp

theorem size_wordsOnto_le (words : Array Int64) (bs : Bytes) :
    (wordsOnto words bs).size ≤ words.size + bs.length := by
  fun_induction wordsOnto words bs with
  | case1 words b0 b1 b2 b3 b4 b5 b6 b7 rest ih =>
    simp only [Array.size_push, List.length_cons] at ih ⊢
    omega
  | case2 words bs _ => omega

/-- Words are found again from their bytes. -/
theorem wordsOf_bytesOfWords (ws : List Int64) : wordsOf (bytesOfWords ws) = ws.toArray := by
  rw [wordsOf, wordsOnto_bytesOfWords]
  simp

theorem length_bytesOfWords (ws : List Int64) : (bytesOfWords ws).length = 8 * ws.length := by
  induction ws with
  | nil => rfl
  | cons w ws ih =>
    have hcons : bytesOfWords (w :: ws) = scalarBytes w ++ bytesOfWords ws := rfl
    have hwidth : Scalar.width Int64 = 8 := rfl
    rw [hcons, List.length_append, length_scalarBytes, ih, List.length_cons, hwidth]
    omega

theorem bytesOfWords_append (ws ws' : List Int64) :
    bytesOfWords (ws ++ ws') = bytesOfWords ws ++ bytesOfWords ws' := List.flatMap_append

theorem bytesOfWords_singleton (w : Int64) : bytesOfWords [w] = scalarBytes w :=
  List.append_nil _

theorem bytesOfWords_zeros (n : Nat) :
    bytesOfWords (List.replicate n 0) = List.replicate (n * 8) 0 := by
  induction n with
  | zero => rfl
  | succ n ih =>
    have hzero : bytesOfWords [0] = List.replicate 8 0 := by decide
    rw [List.replicate_succ', bytesOfWords_append, ih, hzero, List.replicate_append_replicate,
      Nat.add_mul]

section

variable {ws : List Int64} {n : Nat} (h : n ≤ ws.length)
include h

theorem length_bytesOfWords_take : (bytesOfWords (ws.take n)).length = n * 8 := by
  rw [length_bytesOfWords, List.length_take_of_le h, Nat.mul_comm]

theorem take_bytesOfWords : (bytesOfWords ws).take (n * 8) = bytesOfWords (ws.take n) := by
  conv_lhs => rw [← List.take_append_drop n ws, bytesOfWords_append]
  exact List.take_left' (length_bytesOfWords_take h)

theorem drop_bytesOfWords : (bytesOfWords ws).drop (n * 8) = bytesOfWords (ws.drop n) := by
  conv_lhs => rw [← List.take_append_drop n ws, bytesOfWords_append]
  exact List.drop_left' (length_bytesOfWords_take h)

end

end Wire

theorem Quad.mk_words (q : Quad) : #v[q.first, q.second, q.third, q.fourth] = q := by
  ext i hi
  obtain rfl | rfl | rfl | rfl : i = 0 ∨ i = 1 ∨ i = 2 ∨ i = 3 := by omega
  all_goals rfl

theorem Quad.toList_eq (q : Quad) : q.toList = [q.first, q.second, q.third, q.fourth] := by
  conv_lhs => rw [← q.mk_words]
  rfl

/-! ## Addresses -/

namespace Address

theorem ofByte?_byte (v : Version) : Version.ofByte? v.byte = some v := by
  cases v <;> rfl

theorem length_checksum (body : Bytes) : (checksum body).length = 4 := by
  simp [checksum]

theorem length_toBytes (a : Address) : a.toBytes.length = size := by
  simp [toBytes, body, length_checksum, size]

/-- An address is found again from its bytes. -/
theorem ofBytes_toBytes (a : Address) : ofBytes a.toBytes = .ok a := by
  obtain ⟨version, payload⟩ := a
  have hrest : (payload.toList ++ checksum (version.byte :: payload.toList)).length = 24 := by
    simp [length_checksum]
  have htake : (payload.toList ++ checksum (version.byte :: payload.toList)).take 20 =
      payload.toList := List.take_left' (by simp)
  have hdrop : (payload.toList ++ checksum (version.byte :: payload.toList)).drop 20 =
      checksum (version.byte :: payload.toList) := List.drop_left' (by simp)
  have hpayload : ∀ h, (⟨payload.toList.toArray, h⟩ : Vector UInt8 20) = payload := by
    intro h
    apply Vector.toArray_inj.mp
    exact Array.toArray_toList
  unfold toBytes body ofBytes
  simp only [List.cons_append, hrest, ofByte?_byte, dif_pos, htake, hdrop, hpayload]
  exact if_pos rfl

/-- The words of an address are its bytes and seven zeros. -/
theorem bytesOfWords_toWords (a : Address) :
    Wire.bytesOfWords a.toWords.toList = a.padded 32 := by
  have hlen := a.length_padded 32
  have hword : ∀ i, i + 8 ≤ 32 → Wire.scalarBytes
      (Wire.scalarOf (((a.padded 32).drop i).take 8) : Int64) = ((a.padded 32).drop i).take 8 := by
    intro i hi
    apply Wire.scalarBytes_scalarOf
    show _ = 8
    rw [List.length_take, List.length_drop, hlen]
    omega
  have hnext : ∀ i, ((a.padded 32).drop i).take 8 ++ (a.padded 32).drop (i + 8) =
      (a.padded 32).drop i := by
    intro i
    rw [← List.drop_drop, List.take_append_drop]
  have hlast : ((a.padded 32).drop 24).take 8 = (a.padded 32).drop 24 :=
    List.take_of_length_le (Nat.le_of_eq (by rw [List.length_drop, hlen]))
  have hlist : a.toWords.toList = [
      Wire.scalarOf (((a.padded 32).drop 0).take 8), Wire.scalarOf (((a.padded 32).drop 8).take 8),
      Wire.scalarOf (((a.padded 32).drop 16).take 8),
      Wire.scalarOf (((a.padded 32).drop 24).take 8)] := rfl
  rw [hlist]
  simp only [Wire.bytesOfWords, List.flatMap_cons, List.flatMap_nil, List.append_nil]
  rw [hword 0 (by decide), hword 8 (by decide), hword 16 (by decide), hword 24 (by decide), hlast,
    hnext 16, hnext 8, hnext 0, List.drop_zero]

theorem padded_eq (a : Address) : a.padded 32 = a.toBytes ++ List.replicate 7 0 := by
  have hlen : a.toBytes.length = 25 := a.length_toBytes
  rw [padded, List.take_append, hlen, List.take_of_length_le (by omega)]
  rfl

/-- Four words hold an address, and it is found again from them. -/
theorem ofWords_toWords (a : Address) : ofWords a.toWords = .ok a := by
  have htake : (a.padded 32).take size = a.toBytes := by
    rw [padded, List.take_take, show min size 32 = size from rfl, ← a.length_toBytes,
      List.take_left]
  rw [ofWords, bytesOfWords_toWords, htake, ofBytes_toBytes]

end Address

end Pledge
