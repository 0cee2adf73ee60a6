-- The text of a container. It is the Base58 of its bytes, and it is read
-- whatever blanks stand around it and in no other spelling.
import Pledge.Proofs.Container
import Pledge.Proofs.Texts

namespace Pledge

theorem Base58.not_isBlank_of_mem_encode {bs : Bytes} :
    ∀ x ∈ (encode bs).toList, Text.isBlank x = false := by
  intro x hx
  exact not_isBlank_of_mem_alphabet ((spells_iff.mpr rfl).mem_alphabet x hx)

theorem Base58.toList_encode_zero_cons (bs : Bytes) :
    (encode (0 :: bs)).toList = '1' :: (encode bs).toList := by
  have h := encode_zeros_append 1 bs
  rw [List.replicate_one, List.singleton_append, List.replicate_one, List.singleton_append] at h
  rw [h, String.toList_ofList]

namespace Container

variable {c : Container}

theorem sealed_iff : c.Sealed ↔ ofBytes (Wire.toBytes c) = .ok c := by
  rw [ofBytes_eq_ok]
  exact ⟨fun h => ⟨h, rfl⟩, And.left⟩

theorem parse_eq_ok {text : String} :
    parse text = .ok c ↔ c.Sealed ∧ String.ofList (Text.trim text.toList) = c.text := by
  rw [Container.text, ← Base58.decode_eq_ok_iff]
  unfold parse
  cases Base58.decode (String.ofList (Text.trim text.toList)) with
  | ok bs => simp [ofBytes_eq_ok]
  | error reason => simp

theorem trim_eq_text_iff {text : String} :
    String.ofList (Text.trim text.toList) = c.text ↔
      Text.AmongBlanks text.toList c.text.toList := by
  rw [Container.text, ← Text.trim_eq_iff Base58.not_isBlank_of_mem_encode, ← String.toList_inj,
    String.toList_ofList]

/-- The bytes begin with the version, which is a small number in two bytes. -/
theorem toBytes_eq_version_append (h : c.Sealed) : ∃ rest, Wire.toBytes c = 0 :: 2 :: rest := by
  have hversion : Wire.toBytes formatVersion = [0, 2] := rfl
  rw [toBytes_eq, Header.toBytes_eq, h.version, hversion]
  exact ⟨_, rfl⟩

/-! ## The law of texts -/

/-- A text is read as a container where it is the text of the container with nothing but blanks
around it, and the container is one that its bytes give back. The text is the one that spells the
bytes. They begin with a zero byte, so the text begins with '1'. -/
theorem a_container_has_one_text_but_for_blanks :
    (∀ text c, parse text = .ok c ↔
      ofBytes (Wire.toBytes c) = .ok c ∧ String.ofList (Text.trim text.toList) = c.text) ∧
    (∀ (text : String) (c : Container), String.ofList (Text.trim text.toList) = c.text ↔
      Text.AmongBlanks text.toList c.text.toList) ∧
    (∀ (text : String) (c : Container), text = c.text ↔
      Base58.Spells text.toList (Wire.toBytes c)) ∧
    ∀ c, ofBytes (Wire.toBytes c) = .ok c →
      (Wire.toBytes c).head? = some 0 ∧ c.text.toList.head? = some '1' := by
  refine ⟨?_, fun _ _ => trim_eq_text_iff, fun _ _ => Base58.spells_iff.symm, ?_⟩
  · intro text c
    rw [parse_eq_ok, sealed_iff]
  · intro c h
    obtain ⟨rest, hrest⟩ := toBytes_eq_version_append (sealed_iff.mpr h)
    rw [Container.text, hrest, Base58.toList_encode_zero_cons]
    exact ⟨rfl, rfl⟩

end Container

end Pledge
