-- Values of many shapes in one stream of bytes. They are read back one after
-- the other, whatever stands behind them. Where the stream ends too early, a
-- reader has taken the integers that were complete and nothing of the next.
import Pledge.Proofs.Container

namespace Pledge.Wire

/-! ## Vectors -/

section

variable {β : Type} [Encode β] {n : Nat}

theorem toBytes_vector (v : Vector β n) : toBytes v = v.toList.flatMap toBytes := by
  have hbytes : (toBytes : β → Bytes) = fun b => (Encode.pieces b).flatMap id := by
    funext b
    rw [toBytes_eq_flatten, List.flatten_eq_flatMap]
  rw [toBytes_eq_flatten, List.flatten_eq_flatMap, hbytes]
  exact List.flatMap_assoc

theorem toBytes_empty (v : Vector β 0) : toBytes v = [] := by
  rw [toBytes_vector, show v = #v[] from Vector.eq_empty]
  rfl

theorem toBytes_push (v : Vector β n) (b : β) : toBytes (v.push b) = toBytes v ++ toBytes b := by
  rw [toBytes_vector, toBytes_vector, Vector.toList_push, List.flatMap_append]
  simp

variable [Decode β] [Faithful β]

theorem readVector_eq_ok {input rest : Bytes} {v : Vector β n} :
    readVector n input = .ok v rest ↔ input = toBytes v ++ rest := by
  induction n generalizing rest with
  | zero =>
    refine Reader.pure_eq_ok.trans ⟨?_, ?_⟩
    · rintro ⟨_, rfl⟩
      rw [toBytes_empty, List.nil_append]
    · rintro rfl
      rw [toBytes_empty, List.nil_append]
      exact ⟨Vector.eq_empty.symm, rfl⟩
  | succ n ih =>
    refine Reader.bind_eq_ok.trans ⟨?_, ?_⟩
    · rintro ⟨front, mid, hfront, h⟩
      obtain ⟨b, mid', hlast, h⟩ := Reader.bind_eq_ok.mp h
      obtain ⟨rfl, rfl⟩ := Reader.pure_eq_ok.mp h
      rw [Faithful.read_eq_ok] at hlast
      rw [ih.mp hfront, hlast, toBytes_push, List.append_assoc]
    · intro h
      rw [← Vector.push_pop_back v, toBytes_push, List.append_assoc] at h
      refine ⟨v.pop, toBytes v.back ++ rest, ih.mpr h, Reader.bind_eq_ok.mpr ⟨v.back, rest, ?_, ?_⟩⟩
      · exact Faithful.read_eq_ok.mpr rfl
      · exact Reader.pure_eq_ok.mpr ⟨Vector.push_pop_back v, rfl⟩

instance : Faithful (Vector β n) where
  read_eq_ok := readVector_eq_ok

end

/-! ## How far a reader goes -/

/-- Reading stops in a row of integers of the given widths: those in front are complete and have
been taken, and what is left is too short for the next. -/
def Stops (widths : List Nat) (input rest : Bytes) : Prop :=
  ∃ front width back taken, widths = front ++ width :: back ∧ taken.length = front.sum ∧
    input = taken ++ rest ∧ rest.length < width

/-- The reader goes over integers of the given widths. It takes them all, or it stops in the middle
and finds the end of the input. -/
structure Spans {β : Type} (reader : Reader β) (widths : List Nat) : Prop where
  whole : ∀ {input rest : Bytes}, (∃ b, reader input = .ok b rest) ↔
    ∃ taken, taken.length = widths.sum ∧ input = taken ++ rest
  cut : ∀ {input rest : Bytes} {e : Error}, reader input = .error e rest ↔
    e = .endOfInput ∧ Stops widths input rest

theorem not_stops_nil {input rest : Bytes} : ¬ Stops [] input rest := by
  rintro ⟨front, width, back, taken, hwidths, _⟩
  simp at hwidths

theorem exists_append_of_length {bs : Bytes} {m n : Nat} (h : bs.length = m + n) :
    ∃ front back, front.length = m ∧ back.length = n ∧ bs = front ++ back := by
  refine ⟨bs.take m, bs.drop m, ?_, ?_, (List.take_append_drop m bs).symm⟩
  · rw [List.length_take]
    omega
  · rw [List.length_drop]
    omega

/-- In two rows of integers, reading stops in the first, or behind all of the first in the second.
-/
theorem stops_append {widths widths' : List Nat} {input rest : Bytes} :
    Stops (widths ++ widths') input rest ↔ Stops widths input rest ∨
      ∃ taken mid, taken.length = widths.sum ∧ input = taken ++ mid ∧ Stops widths' mid rest := by
  constructor
  · rintro ⟨front, width, back, taken, hwidths, htaken, rfl, hrest⟩
    rcases List.append_eq_append_iff.mp hwidths with ⟨more, rfl, rfl⟩ | ⟨more, rfl, hmore⟩
    · rw [List.sum_append] at htaken
      obtain ⟨first, second, hfirst, hsecond, rfl⟩ := exists_append_of_length htaken
      rw [List.append_assoc]
      exact .inr ⟨first, second ++ rest, hfirst, rfl, more, width, back, second, rfl, hsecond, rfl,
        hrest⟩
    · cases more with
      | nil =>
        rw [List.append_nil]
        exact .inr ⟨taken, rest, htaken, rfl, [], width, back, [], hmore.symm, rfl, rfl, hrest⟩
      | cons next more =>
        obtain ⟨rfl, _⟩ := List.cons.inj hmore
        exact .inl ⟨front, width, more, taken, rfl, htaken, rfl, hrest⟩
  · rintro (⟨front, width, back, taken, rfl, htaken, rfl, hrest⟩ |
      ⟨taken, mid, htaken, rfl, front, width, back, taken', rfl, htaken', rfl, hrest⟩)
    · exact ⟨front, width, back ++ widths', taken, by simp, htaken, rfl, hrest⟩
    · refine ⟨widths ++ front, width, back, taken ++ taken', by simp, ?_, by simp, hrest⟩
      rw [List.length_append, List.sum_append, htaken, htaken']

theorem stops_singleton {width : Nat} {input rest : Bytes} :
    Stops [width] input rest ↔ input = rest ∧ input.length < width := by
  constructor
  · rintro ⟨front, width', back, taken, hwidths, htaken, rfl, hrest⟩
    cases front with
    | nil =>
      obtain ⟨rfl, _⟩ := List.cons.inj hwidths
      obtain rfl : taken = [] := List.length_eq_zero_iff.mp htaken
      exact ⟨rfl, hrest⟩
    | cons first front => simp at hwidths
  · rintro ⟨rfl, hlt⟩
    exact ⟨[], width, [], [], rfl, rfl, rfl, hlt⟩

/-- Where reading stops, there are fewer bytes than all the integers take. -/
theorem Stops.length_lt {widths : List Nat} {input rest : Bytes} (h : Stops widths input rest) :
    input.length < widths.sum := by
  obtain ⟨front, width, back, taken, rfl, htaken, rfl, hrest⟩ := h
  rw [List.length_append, List.sum_append, List.sum_cons]
  omega

namespace Spans

variable {β γ : Type}

theorem nothing (b : β) : Spans (pure b) [] where
  whole {input rest} := by
    simp [Reader.pure_eq_ok]
  cut {input rest e} := by
    simp [Reader.pure_ne_error, not_stops_nil]

theorem takeBytes (n : Nat) : Spans (takeBytes n) [n] where
  whole {input rest} := by
    simp [takeBytes_eq_ok]
  cut {input rest e} := by
    rw [takeBytes_eq_error, stops_singleton]

/-- Two readers in a row go over the integers of both. -/
theorem bind {reader : Reader β} {next : β → Reader γ} {widths widths' : List Nat}
    (h : Spans reader widths) (h' : ∀ b, Spans (next b) widths') :
    Spans (reader >>= next) (widths ++ widths') where
  whole {input rest} := by
    constructor
    · rintro ⟨c, hread⟩
      obtain ⟨b, mid, hb, hc⟩ := Reader.bind_eq_ok.mp hread
      obtain ⟨taken, htaken, rfl⟩ := h.whole.mp ⟨b, hb⟩
      obtain ⟨taken', htaken', rfl⟩ := (h' b).whole.mp ⟨c, hc⟩
      refine ⟨taken ++ taken', ?_, by simp⟩
      rw [List.length_append, List.sum_append, htaken, htaken']
    · rintro ⟨taken, htaken, rfl⟩
      rw [List.sum_append] at htaken
      obtain ⟨first, second, hfirst, hsecond, rfl⟩ := exists_append_of_length htaken
      rw [List.append_assoc]
      obtain ⟨b, hb⟩ := h.whole.mpr ⟨first, hfirst, rfl⟩
      obtain ⟨c, hc⟩ := (h' b).whole.mpr ⟨second, hsecond, rfl⟩
      exact ⟨c, Reader.bind_eq_ok.mpr ⟨b, second ++ rest, hb, hc⟩⟩
  cut {input rest e} := by
    rw [Reader.bind_eq_error, stops_append]
    constructor
    · rintro (hcut | ⟨b, mid, hb, hcut⟩)
      · obtain ⟨rfl, hstops⟩ := h.cut.mp hcut
        exact ⟨rfl, .inl hstops⟩
      · obtain ⟨taken, htaken, rfl⟩ := h.whole.mp ⟨b, hb⟩
        obtain ⟨rfl, hstops⟩ := (h' b).cut.mp hcut
        exact ⟨rfl, .inr ⟨taken, mid, htaken, rfl, hstops⟩⟩
    · rintro ⟨rfl, hstops | ⟨taken, mid, htaken, rfl, hstops⟩⟩
      · exact .inl (h.cut.mpr ⟨rfl, hstops⟩)
      · obtain ⟨b, hb⟩ := h.whole.mpr ⟨taken, htaken, rfl⟩
        exact .inr ⟨b, mid, hb, (h' b).cut.mpr ⟨rfl, hstops⟩⟩

/-- What is made of a value takes no more bytes. -/
theorem map {reader : Reader β} {widths : List Nat} (h : Spans reader widths) (f : β → γ) :
    Spans (reader >>= fun b => pure (f b)) widths := by
  have hbind := h.bind fun b => nothing (f b)
  rwa [List.append_nil] at hbind

theorem scalar (α : Type) [Scalar α] : Spans (Decode.read : Reader α) [Scalar.width α] :=
  (takeBytes _).map scalarOf

/-- By induction on the number of elements, which are read from the first to the last. -/
theorem vector [Decode β] {widths : List Nat} (h : Spans (Decode.read : Reader β) widths)
    (n : Nat) : Spans (Decode.read : Reader (Vector β n)) (List.replicate n widths).flatten := by
  show Spans (readVector n) _
  induction n with
  | zero => exact nothing _
  | succ n ih =>
    rw [List.replicate_succ', List.flatten_append, List.flatten_singleton]
    exact ih.bind fun front => h.map front.push

theorem header : Spans (Decode.read : Reader Header) [2, 2, 2, 2, 2, 2, 8] := by
  have h := scalar Int16
  exact h.bind fun _ => h.bind fun _ => h.bind fun _ => h.bind fun _ => h.bind fun _ =>
    h.bind fun _ => (scalar Int64).map _

end Spans

/-! ## Shapes of values -/

/-- The fixed-width integers. -/
inductive IntegerKind where
  | u8
  | i8
  | u16
  | i16
  | u32
  | i32
  | u64
  | i64
  deriving DecidableEq, Repr

def IntegerKind.Value : IntegerKind → Type
  | u8 => UInt8
  | i8 => Int8
  | u16 => UInt16
  | i16 => Int16
  | u32 => UInt32
  | i32 => Int32
  | u64 => UInt64
  | i64 => Int64

instance : (kind : IntegerKind) → Scalar kind.Value
  | .u8 => inferInstanceAs (Scalar UInt8)
  | .i8 => inferInstanceAs (Scalar Int8)
  | .u16 => inferInstanceAs (Scalar UInt16)
  | .i16 => inferInstanceAs (Scalar Int16)
  | .u32 => inferInstanceAs (Scalar UInt32)
  | .i32 => inferInstanceAs (Scalar Int32)
  | .u64 => inferInstanceAs (Scalar UInt64)
  | .i64 => inferInstanceAs (Scalar Int64)

/-- The shapes of values that can be read: integers, headers, and vectors of any of them, nested as
deep as one likes. -/
inductive Shape where
  | integer (kind : IntegerKind)
  | header
  | vector (element : Shape) (n : Nat)
  deriving DecidableEq, Repr

namespace Shape

def Value : Shape → Type
  | integer kind => kind.Value
  | header => Header
  | vector element n => Vector element.Value n

/-- The widths of the integers that a value of the shape is made of, in order. -/
def widths : Shape → List Nat
  | integer kind => [Scalar.width kind.Value]
  | header => [2, 2, 2, 2, 2, 2, 8]
  | vector element n => (List.replicate n element.widths).flatten

/-- The number of bytes of a value of the shape. -/
def size (shape : Shape) : Nat := shape.widths.sum

instance instEncode : (shape : Shape) → Encode shape.Value
  | integer kind => inferInstanceAs (Encode kind.Value)
  | header => inferInstanceAs (Encode Header)
  | vector element n =>
    letI := instEncode element
    inferInstanceAs (Encode (Vector element.Value n))

instance instDecode : (shape : Shape) → Decode shape.Value
  | integer kind => inferInstanceAs (Decode kind.Value)
  | header => inferInstanceAs (Decode Header)
  | vector element n =>
    letI := instDecode element
    inferInstanceAs (Decode (Vector element.Value n))

instance (shape : Shape) : Faithful shape.Value := by
  induction shape with
  | integer kind => exact inferInstanceAs (Faithful kind.Value)
  | header => exact inferInstanceAs (Faithful Header)
  | vector element n ih => exact inferInstanceAs (Faithful (Vector element.Value n))

theorem spans (shape : Shape) : Spans (Decode.read : Reader shape.Value) shape.widths := by
  induction shape with
  | integer kind => exact Spans.scalar kind.Value
  | header => exact Spans.header
  | vector element n ih => exact ih.vector n

/-- The shape alone tells how many bytes a value takes. -/
theorem length_toBytes (shape : Shape) (value : shape.Value) :
    (toBytes value).length = shape.size := by
  have hread : (Decode.read : Reader shape.Value) (toBytes value) = .ok value [] :=
    Faithful.read_eq_ok.mpr (List.append_nil _).symm
  obtain ⟨taken, htaken, heq⟩ := shape.spans.whole.mp ⟨value, hread⟩
  rw [heq, List.append_nil]
  exact htaken

end Shape

/-! ## The law of streams -/

theorem ofBytes_eq_ok {β : Type} [Encode β] [Decode β] [Faithful β] {bs : Bytes} {b : β} :
    ofBytes bs = .ok b ↔ bs = toBytes b := by
  have hwhole : (Decode.read : Reader β) bs = .ok b [] ↔ bs = toBytes b := by
    rw [Faithful.read_eq_ok, List.append_nil]
  rw [← hwhole]
  unfold ofBytes
  constructor
  · intro h
    split at h
    · rename_i hread
      cases h
      exact hread
    · cases h
    · cases h
  · intro hread
    rw [hread]

structure Item where
  shape : Shape
  value : shape.Value

/-- The wire form of a value of some shape. -/
def Item.bytes (item : Item) : Bytes := toBytes item.value

/-- Reads values of the given shapes, one after the other. -/
def readItems : List Shape → Reader (List Item)
  | [] => return []
  | shape :: shapes => do
    let value ← (Decode.read : Reader shape.Value)
    let items ← readItems shapes
    return ⟨shape, value⟩ :: items

/-- By induction on the shapes: each value is read where its bytes stand, and the next one behind
them. -/
theorem readItems_eq_ok {shapes : List Shape} {input rest : Bytes} {items : List Item} :
    readItems shapes input = .ok items rest ↔
      items.map Item.shape = shapes ∧ input = items.flatMap Item.bytes ++ rest := by
  induction shapes generalizing input items with
  | nil =>
    refine Reader.pure_eq_ok.trans ⟨?_, ?_⟩
    · rintro ⟨rfl, rfl⟩
      exact ⟨rfl, rfl⟩
    · rintro ⟨hshapes, rfl⟩
      obtain rfl := List.map_eq_nil_iff.mp hshapes
      exact ⟨rfl, rfl⟩
  | cons shape shapes ih =>
    refine Reader.bind_eq_ok.trans ⟨?_, ?_⟩
    · rintro ⟨value, mid, hvalue, h⟩
      obtain ⟨items', mid', hitems, h⟩ := Reader.bind_eq_ok.mp h
      obtain ⟨rfl, rfl⟩ := Reader.pure_eq_ok.mp h
      obtain ⟨rfl, rfl⟩ := ih.mp hitems
      rw [Faithful.read_eq_ok] at hvalue
      refine ⟨rfl, ?_⟩
      rw [hvalue, List.flatMap_cons, List.append_assoc]
      rfl
    · rintro ⟨hshapes, rfl⟩
      obtain ⟨item, items, rfl, rfl, hrest⟩ := List.map_eq_cons_iff.mp hshapes
      rw [List.flatMap_cons, List.append_assoc]
      refine ⟨item.value, items.flatMap Item.bytes ++ rest, Faithful.read_eq_ok.mpr rfl, ?_⟩
      exact Reader.bind_eq_ok.mpr ⟨items, rest, ih.mpr ⟨hrest, rfl⟩,
        Reader.pure_eq_ok.mpr ⟨rfl, rfl⟩⟩

/-- Values in a row are read back in order, and what stands behind them is left. Bytes are read as a
value exactly where they are its wire form, which is as long as the shape tells. Reading a value
fails in one way only: there are fewer bytes than the shape takes, the integers that are complete
have been taken, and what is left is shorter than the next. -/
theorem values_are_read_in_turn :
    (∀ (items : List Item) (rest : Bytes),
      readItems (items.map Item.shape) (items.flatMap Item.bytes ++ rest) = .ok items rest) ∧
    (∀ (shape : Shape) (value : shape.Value),
      encodedSize value = shape.size ∧ ∀ bs, ofBytes bs = .ok value ↔ bs = toBytes value) ∧
    ∀ (shape : Shape) (input rest : Bytes) (e : Error),
      (Decode.read : Reader shape.Value) input = .error e rest ↔
        e = .endOfInput ∧ input.length < shape.size ∧ Stops shape.widths input rest := by
  refine ⟨?_, ?_, ?_⟩
  · intro items rest
    exact readItems_eq_ok.mpr ⟨rfl, rfl⟩
  · intro shape value
    rw [encodedSize_eq, shape.length_toBytes]
    exact ⟨rfl, fun bs => ofBytes_eq_ok⟩
  · intro shape input rest e
    rw [shape.spans.cut]
    constructor
    · rintro ⟨he, hstops⟩
      exact ⟨he, hstops.length_lt, hstops⟩
    · rintro ⟨he, _, hstops⟩
      exact ⟨he, hstops⟩

/-- Of two pairs of 16-bit integers the first pair is complete and half of the second. -/
example : (Decode.read : Reader (Shape.vector (.vector (.integer .u16) 2) 2).Value)
    [0, 1, 0, 2, 0, 3, 4] = .error .endOfInput [4] := rfl

end Pledge.Wire
