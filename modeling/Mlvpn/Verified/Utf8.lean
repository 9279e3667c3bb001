import Mathlib.Data.List.Basic
import Mathlib.Order.Basic

/-!
# Strings as UTF-8 byte lists

The bytes of a string, decoding them back, and where a prefix of them may end.
A cut at a character boundary leaves valid UTF-8, and a NUL byte always stands at
one, so a C-style reader of a padded field never splits a character.
-/

namespace Mlvpn.Verified.Utf8

/-- `str::as_bytes`. -/
def bytes (s : String) : List UInt8 := s.toUTF8.data.toList

/-- `str::from_utf8`. -/
def ofBytes? (bs : List UInt8) : Option String := String.fromUTF8? ⟨bs.toArray⟩

/-- `str::is_char_boundary`. -/
def isCharBoundary (s : String) (i : Nat) : Bool := decide (String.Pos.Raw.IsValid s ⟨i⟩)

theorem bytes_injective {s t : String} (h : bytes s = bytes t) : s = t := by
  apply String.toByteArray_inj.mp
  apply ByteArray.ext
  exact Array.toList_inj.mp h

/-- A string of the given bytes exists as soon as they are valid. -/
theorem ofBytes?_of_isValidUTF8 {bs : List UInt8}
    (h : ByteArray.IsValidUTF8 ⟨bs.toArray⟩) : ∃ t, ofBytes? bs = some t ∧ bytes t = bs := by
  refine ⟨String.fromUTF8 ⟨bs.toArray⟩ h, ?_, rfl⟩
  simp [ofBytes?, String.fromUTF8?, h]

theorem isCharBoundary_length (s : String) : isCharBoundary s (bytes s).length = true :=
  decide_eq_true (String.Pos.Raw.isValid_iff_isUTF8FirstByte.mpr (Or.inl rfl))

theorem isCharBoundary_zero (s : String) : isCharBoundary s 0 = true :=
  decide_eq_true String.Pos.Raw.isValid_zero

/-- A character has at most four bytes, so a string that is not empty has a boundary
behind its first. -/
theorem exists_boundary {s : String} (hs : s ≠ "") :
    ∃ i, 0 < i ∧ i ≤ 4 ∧ i ≤ (bytes s).length ∧ isCharBoundary s i = true := by
  obtain ⟨c, t, rfl⟩ : ∃ c t, s = String.singleton c ++ t := by
    cases h : s.toList with
    | nil => exact absurd (by rw [← String.ofList_toList (s := s), h]) hs
    | cons c cs =>
      refine ⟨c, String.ofList cs, ?_⟩
      rw [← String.ofList_toList (s := s), h, String.ofList_cons]
  refine ⟨c.utf8Size, c.utf8Size_pos, c.utf8Size_le_four, ?_, ?_⟩
  · show c.utf8Size ≤ (String.singleton c ++ t).utf8ByteSize
    rw [String.utf8ByteSize_append, String.utf8ByteSize_singleton]
    omega
  · refine decide_eq_true
      (String.Pos.Raw.isValid_iff_exists_append.mpr ⟨String.singleton c, t, rfl, ?_⟩)
    ext
    simp

/-- NUL is a character of its own. -/
theorem isCharBoundary_of_nul {s : String} {i : Nat} (hi : i < (bytes s).length)
    (hnul : (bytes s)[i] = 0) : isCharBoundary s i = true := by
  refine decide_eq_true (String.Pos.Raw.isValid_iff_isUTF8FirstByte.mpr (Or.inr ⟨hi, ?_⟩))
  have hbyte : s.getUTF8Byte ⟨i⟩ hi = 0 := hnul
  rw [hbyte]
  decide

/-- A prefix cut at a boundary is a string again. -/
theorem ofBytes?_take {s : String} {i : Nat} (h : isCharBoundary s i = true) :
    ∃ t, ofBytes? ((bytes s).take i) = some t ∧ bytes t = (bytes s).take i := by
  apply ofBytes?_of_isValidUTF8
  have hvalid := (of_decide_eq_true h).isValidUTF8_extract_zero
  have heq : s.toByteArray.extract 0 i = ⟨((bytes s).take i).toArray⟩ := by
    apply ByteArray.ext
    apply Array.toList_inj.mp
    simp [bytes, ByteArray.data_extract]
  rwa [← heq]

/-! ## NUL-terminated fields -/

/-- The bytes before the first NUL: `&field[..end]` with `end` its position, or the
length of the field. -/
def untilNul (bs : List UInt8) : List UInt8 := bs.take (bs.findIdx (· = 0))

theorem untilNul_append_padding (bs : List UInt8) (k : Nat) :
    untilNul (bs ++ List.replicate k 0) = untilNul bs := by
  have hzeros : (List.replicate k (0 : UInt8)).findIdx (· = 0) = 0 := by
    cases k with
    | zero => rfl
    | succ k => simp [List.replicate_succ, List.findIdx_cons]
  unfold untilNul
  rw [List.findIdx_append, hzeros, Nat.zero_add]
  split
  case isTrue hlt => exact List.take_append_of_le_length (Nat.le_of_lt hlt)
  case isFalse hge =>
    have hle : bs.findIdx (· = 0) ≤ bs.length := List.findIdx_le_length
    rw [List.take_left, show bs.findIdx (· = 0) = bs.length by omega, List.take_length]

theorem untilNul_eq_self_iff {bs : List UInt8} : untilNul bs = bs ↔ 0 ∉ bs := by
  have hle : bs.findIdx (· = 0) ≤ bs.length := List.findIdx_le_length
  constructor
  · intro hself hmem
    have hlt : bs.findIdx (· = 0) < bs.length :=
      List.findIdx_lt_length_of_exists ⟨0, hmem, by simp⟩
    have hlen := congrArg List.length hself
    rw [untilNul, List.length_take] at hlen
    omega
  · intro hnot
    apply List.take_of_length_le
    by_contra hlt
    have hlt : bs.findIdx (· = 0) < bs.length := Nat.lt_of_not_le hlt
    have hnul : bs[bs.findIdx (· = 0)] = 0 := by simpa using List.findIdx_getElem (w := hlt)
    exact hnot (hnul ▸ List.getElem_mem hlt)

/-- Before the first NUL of a string there is a string. -/
theorem ofBytes?_untilNul (s : String) :
    ∃ t, ofBytes? (untilNul (bytes s)) = some t ∧ bytes t = untilNul (bytes s) := by
  have hle : (bytes s).findIdx (· = 0) ≤ (bytes s).length := List.findIdx_le_length
  apply ofBytes?_take
  rcases Nat.lt_or_eq_of_le hle with hlt | heq
  · apply isCharBoundary_of_nul hlt
    simpa using List.findIdx_getElem (w := hlt)
  · rw [heq]
    exact isCharBoundary_length s

end Mlvpn.Verified.Utf8
