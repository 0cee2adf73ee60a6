-- The bytes of containers: what is written is read back, and nothing is read
-- as a container but what is written for it. Every reader needs all of its
-- bytes, so no part of a container is taken for one, wherever it is cut, and
-- nothing behind a container is taken into it. What can be wrapped is what a
-- header can count.
import Pledge.Container
import Pledge.Proofs.Encoding

namespace Pledge

/-! ## The header -/

theorem Header.toBytes_eq (h : Header) :
    Wire.toBytes h = Wire.toBytes h.version ++ Wire.toBytes h.reserved ++
      Wire.toBytes h.codePages ++ Wire.toBytes h.dataPages ++ Wire.toBytes h.callStackPages ++
      Wire.toBytes h.userStackPages ++ Wire.toBytes h.minActivation := by
  simp only [Wire.toBytes_eq_flatten, Wire.Encode.pieces, List.flatten_append]

theorem Header.length_toBytes (h : Header) : (Wire.toBytes h).length = 20 := by
  simp only [Header.toBytes_eq, Wire.toBytes_scalar, List.length_append, Wire.length_scalarBytes]
  rfl

instance : Wire.Faithful Header where
  read_eq_ok {input rest h} := by
    show (Wire.Decode.read >>= _) _ = _ ↔ _
    simp only [Wire.Reader.bind_eq_ok, Wire.Reader.pure_eq_ok, Wire.Faithful.read_eq_ok,
      Header.toBytes_eq, List.append_assoc]
    constructor
    · rintro ⟨version, _, rfl, reserved, _, rfl, code, _, rfl, data, _, rfl, call, _, rfl, user, _,
        rfl, activation, _, rfl, rfl, rfl⟩
      rfl
    · rintro rfl
      exact ⟨_, _, rfl, _, _, rfl, _, _, rfl, _, _, rfl, _, _, rfl, _, _, rfl, _, _, rfl, rfl, rfl⟩

namespace Container

/-! ## Readers that need all of their bytes -/

/-- Bytes in a row end too early in the first of them, or behind all of the first in the second. -/
theorem prefix_append_cases {part bs bs' : Bytes} (h : part <+: bs ++ bs')
    (hne : part ≠ bs ++ bs') :
    (part <+: bs ∧ part ≠ bs) ∨ ∃ part', part = bs ++ part' ∧ part' <+: bs' ∧ part' ≠ bs' := by
  by_cases hbs : bs <+: part
  · obtain ⟨part', rfl⟩ := hbs
    refine .inr ⟨part', rfl, (List.prefix_append_right_inj bs).mp h, ?_⟩
    rintro rfl
    exact hne rfl
  · rcases List.prefix_or_prefix_of_prefix h (List.prefix_append bs bs') with hfirst | hfirst
    · refine .inl ⟨hfirst, ?_⟩
      rintro rfl
      exact hbs List.prefix_rfl
    · exact absurd hfirst hbs

theorem readFront_eq_ok {α : Type} {reader : Wire.Reader α} {input rest : Bytes} {a : α} :
    readFront reader input = .ok (a, rest) ↔ reader input = .ok a rest := by
  unfold readFront
  cases reader input with
  | ok b mid => simp
  | error e mid => simp

/-- The reader takes the bytes and goes on with what stands behind them. Where the bytes end too
early, it finds them truncated. -/
structure Takes {β : Type} (reader : Bytes → Except ProgramError β) (bs : Bytes)
    (goOn : Bytes → Except ProgramError β) : Prop where
  whole : ∀ rest, reader (bs ++ rest) = goOn rest
  cut : ∀ part, part <+: bs → part ≠ bs → reader part = .error (.malformed .truncated)

namespace Takes

variable {α β : Type} {bs bs' : Bytes}

theorem nothing (reader : Bytes → Except ProgramError β) : Takes reader [] reader where
  whole _ := rfl
  cut _ hpart hne := absurd (List.prefix_nil.mp hpart) hne

/-- Two readers in a row. -/
theorem bind {reader : Bytes → Except ProgramError (α × Bytes)}
    {next : α × Bytes → Except ProgramError β} {goOn : Bytes → Except ProgramError β} {a : α}
    (h : Takes reader bs fun rest => .ok (a, rest))
    (h' : Takes (fun input => next (a, input)) bs' goOn) :
    Takes (fun input => reader input >>= next) (bs ++ bs') goOn where
  whole rest := by
    rw [List.append_assoc, h.whole]
    exact h'.whole rest
  cut part hpart hne := by
    rcases prefix_append_cases hpart hne with ⟨hfirst, hshort⟩ | ⟨part', rfl, hsecond, hshort⟩
    · rw [h.cut part hfirst hshort]
      rfl
    · rw [h.whole]
      exact h'.cut part' hsecond hshort

/-- A check that is passed takes nothing. -/
theorem check {reader goOn : Bytes → Except ProgramError β} {p : Prop} [Decidable p]
    {e : ProgramError} (hp : ¬ p) (h : Takes reader bs goOn) :
    Takes (fun input => if p then throw e else reader input) bs goOn := by
  simp only [if_neg hp]
  exact h

/-- What fails at the front of the input is always that it is truncated, so a reader needs all of
its bytes where it never gives a value for fewer of them. -/
theorem front {reader : Wire.Reader α} {a : α} (hwhole : ∀ rest, reader (bs ++ rest) = .ok a rest)
    (hsize : ∀ {input rest : Bytes} {b : α}, reader input = .ok b rest → bs.length ≤ input.length) :
    Takes (readFront reader) bs fun rest => .ok (a, rest) where
  whole rest := readFront_eq_ok.mpr (hwhole rest)
  cut part hpart hne := by
    unfold readFront
    cases hread : reader part with
    | error e rest => rfl
    | ok b rest => exact absurd (hpart.eq_of_length_le (hsize hread)) hne

end Takes

theorem takes_takeBytes (bs : Bytes) :
    Takes (readFront (Wire.takeBytes bs.length)) bs fun rest => .ok (bs, rest) := by
  apply Takes.front
  · intro rest
    exact Wire.takeBytes_eq_ok.mpr ⟨rfl, rfl⟩
  · intro input rest bs' hread
    obtain ⟨hlength, rfl⟩ := Wire.takeBytes_eq_ok.mp hread
    rw [List.length_append]
    omega

theorem takes_header (h : Header) :
    Takes (readFront (Wire.Decode.read : Wire.Reader Header)) (Wire.toBytes h)
      fun rest => .ok (h, rest) := by
  apply Takes.front
  · intro rest
    exact Wire.Faithful.read_eq_ok.mpr rfl
  · intro input rest h' hread
    rw [Wire.Faithful.read_eq_ok] at hread
    rw [hread, List.length_append, h.length_toBytes, h'.length_toBytes]
    omega

/-! ## Segments -/

/-- A segment behind its length. -/
def segmentBytes (segment : Bytes) : Bytes :=
  Wire.bigEndian (lengthWidth segment.length) segment.length ++ segment

theorem lt_pow_lengthWidth {len : Nat} (h : len < 2 ^ 32) : len < 256 ^ lengthWidth len := by
  unfold lengthWidth
  split
  · omega
  · split
    · omega
    · omega

/-- The length in front of a segment is read to its end before it is compared, so a cut in it is no
disagreement. -/
theorem takes_segment {segment : Bytes} {len : Nat} (disagrees : Malformed)
    (hlen : segment.length = len) (hmax : len < 2 ^ 32) :
    Takes (readSegment len disagrees) (segmentBytes segment) fun rest => .ok (segment, rest) := by
  subst hlen
  have hvalue : Wire.valueOf (Wire.bigEndian (lengthWidth segment.length) segment.length) =
      segment.length := by
    rw [Wire.valueOf_bigEndian, Nat.mod_eq_of_lt (lt_pow_lengthWidth hmax)]
  have hdeclared := takes_takeBytes (Wire.bigEndian (lengthWidth segment.length) segment.length)
  rw [Wire.length_bigEndian] at hdeclared
  exact hdeclared.bind (.check (fun h => h hvalue) (takes_takeBytes segment))

/-- The width of a length follows from the length, so a segment is read exactly where it stands
behind its own length. -/
theorem readSegment_eq_ok {len : Nat} {disagrees : Malformed} {input segment rest : Bytes}
    (hlen : len < 2 ^ 32) :
    readSegment len disagrees input = .ok (segment, rest) ↔
      segment.length = len ∧ input = segmentBytes segment ++ rest := by
  constructor
  · intro hread
    obtain ⟨⟨declared, mid⟩, hdeclared, h⟩ := Except.bind_eq_ok.mp hread
    obtain ⟨hwidth, rfl⟩ := Wire.takeBytes_eq_ok.mp (readFront_eq_ok.mp hdeclared)
    obtain ⟨hagrees, h⟩ := Except.check_eq_ok.mp h
    obtain ⟨rfl, rfl⟩ := Wire.takeBytes_eq_ok.mp (readFront_eq_ok.mp h)
    have hbytes := Wire.bigEndian_valueOf declared
    rw [hwidth, Classical.not_not.mp hagrees] at hbytes
    rw [segmentBytes, hbytes, List.append_assoc]
    exact ⟨rfl, rfl⟩
  · rintro ⟨hlength, rfl⟩
    exact (takes_segment disagrees hlength hlen).whole rest

/-! ## The whole -/

theorem toBytes_eq (c : Container) :
    Wire.toBytes c = Wire.toBytes c.header ++ (segmentBytes c.code ++ segmentBytes c.data) := by
  simp only [Wire.toBytes_eq_flatten, Wire.Encode.pieces, List.flatten_append, segmentBytes]
  simp

theorem length_toBytes (c : Container) :
    (Wire.toBytes c).length = 20 + (lengthWidth c.code.length + c.code.length +
      (lengthWidth c.data.length + c.data.length)) := by
  rw [toBytes_eq, List.length_append, Header.length_toBytes]
  simp [segmentBytes, Nat.add_assoc]

/-- The header of a container tells the version and counts its segments: the code in bytes, the data
in words. -/
structure Sealed (c : Container) : Prop where
  version : c.header.version = formatVersion
  code : (c.code.length : Int) = c.header.codePages.toInt
  data : (c.data.length : Int) = 8 * c.header.dataPages.toInt

theorem pages_nonneg {pages : Int16} : ¬ pages < 0 ↔ 0 ≤ pages.toInt := by
  rw [Int16.lt_iff_toInt_lt, Int16.toInt_zero]
  omega

/-- Reading a container takes all of its bytes, and then only looks whether anything is left. -/
theorem takes_toBytes {c : Container} (h : c.Sealed) :
    Takes ofBytes (Wire.toBytes c) fun rest =>
      if rest ≠ [] then throw (.malformed .trailingBytes) else .ok c := by
  have hcodeMax := c.header.codePages.toInt_lt
  have hdataMax := c.header.dataPages.toInt_lt
  have hcode := h.code
  have hdata := h.data
  have hpages : ¬ (c.header.codePages < 0 ∨ c.header.dataPages < 0) := by
    rw [not_or, pages_nonneg, pages_nonneg]
    omega
  have hcodeLen : c.code.length = c.header.codePages.toInt.toNat := by omega
  have hdataLen : c.data.length = c.header.dataPages.toInt.toNat * wordSize := by
    unfold wordSize
    omega
  rw [toBytes_eq, ← List.append_nil (segmentBytes c.data)]
  refine (takes_header c.header).bind (.check (fun hv => hv h.version) (.check hpages ?_))
  refine (takes_segment _ hcodeLen (by omega)).bind ?_
  exact (takes_segment _ hdataLen (by omega)).bind (.nothing _)

/-- A container is read from its bytes, and from nothing else. -/
theorem ofBytes_eq_ok {input : Bytes} {c : Container} :
    ofBytes input = .ok c ↔ c.Sealed ∧ input = Wire.toBytes c := by
  constructor
  · intro hread
    obtain ⟨⟨header, mid⟩, hheader, h⟩ := Except.bind_eq_ok.mp hread
    obtain ⟨hversion, h⟩ := Except.check_eq_ok.mp h
    obtain ⟨hpages, h⟩ := Except.check_eq_ok.mp h
    obtain ⟨⟨code, mid'⟩, hcode, h⟩ := Except.bind_eq_ok.mp h
    obtain ⟨⟨data, mid''⟩, hdata, h⟩ := Except.bind_eq_ok.mp h
    obtain ⟨hend, h⟩ := Except.check_eq_ok.mp h
    cases h
    rw [not_or, pages_nonneg, pages_nonneg] at hpages
    have hcodeMax := header.codePages.toInt_lt
    have hdataMax := header.dataPages.toInt_lt
    obtain ⟨hcodeLen, rfl⟩ := (readSegment_eq_ok (by omega)).mp hcode
    obtain ⟨hdataLen, rfl⟩ := (readSegment_eq_ok (by unfold wordSize; omega)).mp hdata
    rw [readFront_eq_ok, Wire.Faithful.read_eq_ok] at hheader
    refine ⟨⟨Classical.not_not.mp hversion, ?_, ?_⟩, ?_⟩
    · show (code.length : Int) = header.codePages.toInt
      omega
    · show (data.length : Int) = 8 * header.dataPages.toInt
      unfold wordSize at hdataLen
      omega
    · rw [toBytes_eq, hheader, Classical.not_not.mp hend, List.append_nil]
  · rintro ⟨hsealed, rfl⟩
    have h := (takes_toBytes hsealed).whole []
    rwa [List.append_nil, if_neg (by simp)] at h

theorem toInt_of_pageCount {segment : String} {pages : Nat} {n : Int16}
    (h : pageCount segment pages = .ok n) : n.toInt = pages := by
  unfold pageCount at h
  split at h
  · rename_i hle
    cases h
    exact Int16.toInt_ofNat_of_lt (by unfold maxPages at hle; omega)
  · cases h

/-- The header of wrapped segments counts them. -/
theorem sealed_of_wrap {code data : Bytes} {c : Container} (h : wrap code data = .ok c) :
    c.Sealed := by
  obtain ⟨haligned, h⟩ := Except.check_eq_ok.mp h
  obtain ⟨codePages, hcode, h⟩ := Except.bind_eq_ok.mp h
  obtain ⟨dataPages, hdata, h⟩ := Except.bind_eq_ok.mp h
  cases h
  have hcodePages := toInt_of_pageCount hcode
  have hdataPages := toInt_of_pageCount hdata
  unfold wordSize at haligned hdataPages
  refine ⟨rfl, hcodePages.symm, ?_⟩
  show (data.length : Int) = 8 * dataPages.toInt
  omega

theorem ofBytes_toBytes {c : Container} (h : c.Sealed) : ofBytes (Wire.toBytes c) = .ok c :=
  ofBytes_eq_ok.mpr ⟨h, rfl⟩

/-! ## The law of containers -/

/-- Containers and their bytes determine each other: what is wrapped, whatever its stacks and its
smallest payment, is read back from its bytes; bytes that are read as a container are its bytes, and
its header counts its segments; and no other bytes are read as the same container. -/
theorem containers_and_their_bytes_determine_each_other :
    (∀ code data c, wrap code data = .ok c → ∀ call user amount,
      let c' := (c.withStackPages call user).withMinActivation amount
      ofBytes (Wire.toBytes c) = .ok c ∧ ofBytes (Wire.toBytes c') = .ok c') ∧
    (∀ input c, ofBytes input = .ok c →
      Wire.toBytes c = input ∧ (c.code.length : Int) = c.header.codePages.toInt ∧
        (c.data.length : Int) = 8 * c.header.dataPages.toInt) ∧
    (∀ input input' c, ofBytes input = .ok c → ofBytes input' = .ok c → input = input') := by
  refine ⟨?_, ?_, ?_⟩
  · intro code data c h call user amount c'
    obtain ⟨hversion, hcode, hdata⟩ := sealed_of_wrap h
    have hc' : c'.Sealed := ⟨hversion, hcode, hdata⟩
    exact ⟨ofBytes_toBytes ⟨hversion, hcode, hdata⟩, ofBytes_toBytes hc'⟩
  · intro input c h
    obtain ⟨hsealed, rfl⟩ := ofBytes_eq_ok.mp h
    exact ⟨rfl, hsealed.code, hsealed.data⟩
  · intro input input' c h h'
    rw [(ofBytes_eq_ok.mp h).2, (ofBytes_eq_ok.mp h').2]

/-! ## The law of cuts -/

/-- Of bytes that are read as a container, every part from the front that is not the whole is
truncated, and with anything behind them there are trailing bytes. -/
theorem no_part_of_a_container_is_one {bs : Bytes} {c : Container} (h : ofBytes bs = .ok c) :
    (∀ part, part <+: bs → part ≠ bs → ofBytes part = .error (.malformed .truncated)) ∧
    (∀ more, more ≠ [] → ofBytes (bs ++ more) = .error (.malformed .trailingBytes)) ∧
    Malformed.truncated.message = "truncated" ∧
    Malformed.trailingBytes.message = "trailing bytes" := by
  obtain ⟨hsealed, rfl⟩ := ofBytes_eq_ok.mp h
  refine ⟨(takes_toBytes hsealed).cut, ?_, rfl, rfl⟩
  intro more hmore
  rw [(takes_toBytes hsealed).whole, if_pos hmore]
  rfl

/-- A container with as much code as needs two bytes for its length. -/
def twoByteLength : Container where
  header := ⟨formatVersion, 0, 256, 1, 0, 0, 0⟩
  code := List.replicate 256 0x7f
  data := List.replicate 8 0

theorem sealed_twoByteLength : twoByteLength.Sealed where
  version := rfl
  code := by
    rw [twoByteLength, List.length_replicate]
    rfl
  data := by
    rw [twoByteLength, List.length_replicate]
    rfl

/-- The cut is in the middle of the length of the code. -/
theorem no_part_of_a_container_is_one_in_a_length :
    ofBytes (Wire.toBytes twoByteLength) = .ok twoByteLength ∧
    ofBytes ((Wire.toBytes twoByteLength).take 21) = .error (.malformed .truncated) ∧
    ofBytes (Wire.toBytes twoByteLength ++ [0]) = .error (.malformed .trailingBytes) := by
  have h : ofBytes (Wire.toBytes twoByteLength) = .ok twoByteLength :=
    ofBytes_toBytes sealed_twoByteLength
  have hcode : twoByteLength.code.length = 256 := by
    rw [twoByteLength, List.length_replicate]
  obtain ⟨hcut, hmore, _⟩ := no_part_of_a_container_is_one h
  refine ⟨h, hcut _ (List.take_prefix _ _) ?_, hmore [0] (by simp)⟩
  intro hwhole
  have hlength := congrArg List.length hwhole
  rw [List.length_take, length_toBytes, hcode] at hlength
  omega

/-! ## The law of wrapping -/

/-- Why segments are refused: each check is made only where those before it are passed. The data are
counted in words, and large data are reported so. -/
inductive Unwrappable (code data : Bytes) : ProgramError → Prop
  | misaligned (h : ¬ 8 ∣ data.length) : Unwrappable code data (.misalignedData data.length)
  | code (haligned : 8 ∣ data.length) (h : 32767 < code.length) :
      Unwrappable code data (.segmentTooLarge "code" code.length)
  | data (haligned : 8 ∣ data.length) (hcode : code.length ≤ 32767) (h : 32767 < data.length / 8) :
      Unwrappable code data (.segmentTooLarge "data" (data.length / 8))

/-- Whole words of data, and no more of both segments than a header can count. -/
def Wrappable (code data : Bytes) : Prop :=
  8 ∣ data.length ∧ code.length ≤ 32767 ∧ data.length / 8 ≤ 32767

theorem pageCount_of_le {segment : String} {pages : Nat} (h : pages ≤ 32767) :
    pageCount segment pages = .ok (Int16.ofNat pages) := if_pos h

theorem pageCount_of_lt {segment : String} {pages : Nat} (h : 32767 < pages) :
    pageCount segment pages = .error (.segmentTooLarge segment pages) := by
  unfold pageCount maxPages
  rw [if_neg (by omega)]

theorem wrap_of_unwrappable {code data : Bytes} {e : ProgramError} (h : Unwrappable code data e) :
    wrap code data = .error e := by
  unfold wrap wordSize
  cases h with
  | misaligned h =>
    rw [if_pos (by omega)]
    rfl
  | code haligned h =>
    rw [if_neg (by omega), pageCount_of_lt h]
    rfl
  | data haligned hcode h =>
    rw [if_neg (by omega), pageCount_of_le hcode, pageCount_of_lt h]
    rfl

theorem exists_wrap_of_wrappable {code data : Bytes} (h : Wrappable code data) :
    ∃ c, wrap code data = .ok c := by
  obtain ⟨haligned, hcode, hdata⟩ := h
  unfold wrap wordSize
  rw [if_neg (by omega), pageCount_of_le hcode, pageCount_of_le hdata]
  exact ⟨_, rfl⟩

theorem wrappable_or_unwrappable (code data : Bytes) :
    Wrappable code data ∨ ∃ e, Unwrappable code data e := by
  by_cases haligned : 8 ∣ data.length
  · by_cases hcode : code.length ≤ 32767
    · by_cases hdata : data.length / 8 ≤ 32767
      · exact .inl ⟨haligned, hcode, hdata⟩
      · exact .inr ⟨_, .data haligned hcode (by omega)⟩
    · exact .inr ⟨_, .code haligned (by omega)⟩
  · exact .inr ⟨_, .misaligned haligned⟩

theorem wrap_eq_error {code data : Bytes} {e : ProgramError} :
    wrap code data = .error e ↔ Unwrappable code data e := by
  constructor
  · intro h
    rcases wrappable_or_unwrappable code data with hok | ⟨e', herror⟩
    · obtain ⟨c, hc⟩ := exists_wrap_of_wrappable hok
      rw [hc] at h
      cases h
    · rw [wrap_of_unwrappable herror] at h
      cases h
      exact herror
  · exact wrap_of_unwrappable

theorem exists_wrap {code data : Bytes} :
    (∃ c, wrap code data = .ok c) ↔ Wrappable code data := by
  constructor
  · rintro ⟨c, hc⟩
    rcases wrappable_or_unwrappable code data with hok | ⟨e, herror⟩
    · exact hok
    · rw [wrap_of_unwrappable herror] at hc
      cases hc
  · exact exists_wrap_of_wrappable

/-- An error names one of the two segments and reports its length in bytes. -/
def ReportsLength (code data : Bytes) : ProgramError → Prop
  | .misalignedData len => len = data.length
  | .segmentTooLarge segment len =>
    (segment = "code" ∧ len = code.length) ∨ (segment = "data" ∧ len = data.length)
  | _ => False

section

variable {code data : Bytes} {e : ProgramError}

theorem unwrappable_misaligned :
    (∃ len, Unwrappable code data (.misalignedData len)) ↔ ¬ 8 ∣ data.length := by
  constructor
  · rintro ⟨len, ⟨h⟩⟩
    exact h
  · intro h
    exact ⟨_, .misaligned h⟩

theorem unwrappable_code :
    (∃ len, Unwrappable code data (.segmentTooLarge "code" len)) ↔
      8 ∣ data.length ∧ 32767 < code.length := by
  constructor
  · rintro ⟨len, h⟩
    generalize he : ProgramError.segmentTooLarge "code" len = e at h
    cases h with
    | misaligned _ => cases he
    | code haligned h => exact ⟨haligned, h⟩
    | data _ _ _ => simp at he
  · rintro ⟨haligned, h⟩
    exact ⟨_, .code haligned h⟩

theorem unwrappable_data :
    (∃ len, Unwrappable code data (.segmentTooLarge "data" len)) ↔
      8 ∣ data.length ∧ code.length ≤ 32767 ∧ 32767 < data.length / 8 := by
  constructor
  · rintro ⟨len, h⟩
    generalize he : ProgramError.segmentTooLarge "data" len = e at h
    cases h with
    | misaligned _ => cases he
    | code _ _ => simp at he
    | data haligned hcode h => exact ⟨haligned, hcode, h⟩
  · rintro ⟨haligned, hcode, h⟩
    exact ⟨_, .data haligned hcode h⟩

theorem Unwrappable.length_eq (h : Unwrappable code data e) :
    ∀ len, e = .segmentTooLarge "data" len → data.length = 8 * len := by
  intro len he
  cases h with
  | misaligned _ => cases he
  | code _ _ => simp at he
  | data haligned _ _ =>
    cases he
    omega

theorem Unwrappable.reportsLength_iff (h : Unwrappable code data e) :
    ReportsLength code data e ↔ ∀ len, e ≠ .segmentTooLarge "data" len := by
  cases h with
  | misaligned h => simp [ReportsLength]
  | code haligned h => simp [ReportsLength]
  | data haligned hcode h =>
    -- An eighth of a length that is not zero is another number.
    have hne : data.length / 8 ≠ data.length := by omega
    constructor
    · rintro (⟨hname, _⟩ | ⟨_, hlength⟩)
      · simp at hname
      · exact absurd hlength hne
    · intro hnone
      exact absurd rfl (hnone (data.length / 8))

end

/-- Two segments are wrapped exactly if the data are whole words and a header can count both. The
first thing that is wrong is the error: data that are not aligned, then too much code, then too many
words of data. The error reports the length of the segment that it names, but for data of too many
words: there the length is the number of words. -/
theorem large_data_are_reported_in_words (code data : Bytes) :
    ((∃ len, wrap code data = .error (.misalignedData len)) ↔ ¬ 8 ∣ data.length) ∧
    ((∃ len, wrap code data = .error (.segmentTooLarge "code" len)) ↔
      8 ∣ data.length ∧ 32767 < code.length) ∧
    ((∃ len, wrap code data = .error (.segmentTooLarge "data" len)) ↔
      8 ∣ data.length ∧ code.length ≤ 32767 ∧ 32767 < data.length / 8) ∧
    ((∃ c, wrap code data = .ok c) ↔
      8 ∣ data.length ∧ code.length ≤ 32767 ∧ data.length / 8 ≤ 32767) ∧
    ∀ e, wrap code data = .error e →
      (ReportsLength code data e ↔ ∀ len, e ≠ .segmentTooLarge "data" len) ∧
      ∀ len, e = .segmentTooLarge "data" len → data.length = 8 * len := by
  simp only [wrap_eq_error]
  exact ⟨unwrappable_misaligned, unwrappable_code, unwrappable_data, exists_wrap,
    fun e h => ⟨h.reportsLength_iff, h.length_eq⟩⟩

/-- One word more than a header can count. The error and its wording speak of an eighth of the
bytes. -/
theorem large_data_are_not_reported_in_bytes :
    wrap [] (List.replicate 262144 0) = .error (.segmentTooLarge "data" 32768) ∧
    (ProgramError.segmentTooLarge "data" 32768).message =
      "data segment of 32768 bytes is too large" ∧
    ¬ ∀ code data e, wrap code data = .error e → ReportsLength code data e := by
  have hwrap : wrap [] (List.replicate 262144 0) = .error (.segmentTooLarge "data" 32768) := by
    have h := @Unwrappable.data [] (List.replicate 262144 0)
    rw [List.length_replicate] at h
    exact wrap_of_unwrappable (h (by decide) (by decide) (by decide))
  refine ⟨hwrap, by decide, ?_⟩
  intro h
  have hreports := h _ _ _ hwrap
  rw [ReportsLength, List.length_replicate] at hreports
  simp at hreports

end Container

end Pledge
