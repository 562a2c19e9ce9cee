import Mathlib.Tactic

/-!
# Texts as bytes

A text is sent as the bytes of its characters in UTF-8. No encoding of a character begins another
one, so that one text begins another exactly if its bytes do. The bytes below 128 stand for
themselves: where one of them occurs, a character begins and ends.
-/
namespace Deckard.Utf8

/-- The bytes of a text. -/
def bytes (text : List Char) : List UInt8 := text.flatMap String.utf8EncodeChar

@[simp] theorem bytes_nil : bytes [] = [] := rfl

@[simp] theorem bytes_cons (c : Char) (text : List Char) :
    bytes (c :: text) = String.utf8EncodeChar c ++ bytes text := rfl

@[simp] theorem bytes_append (front back : List Char) :
    bytes (front ++ back) = bytes front ++ bytes back := List.flatMap_append

variable {front text : List Char} {c : Char}

theorem prefix_of_bytes (h : bytes front <+: bytes text) : front <+: text := by
  obtain ⟨rest, hrest⟩ := h
  refine List.isPrefix_of_utf8Encode_append_eq_utf8Encode rest.toByteArray ?_
  rw [List.utf8Encode, List.utf8Encode, ← List.toByteArray_append]
  exact congrArg List.toByteArray hrest

theorem bytes_prefix_iff : bytes front <+: bytes text ↔ front <+: text := by
  refine ⟨prefix_of_bytes, ?_⟩
  rintro ⟨rest, rfl⟩
  rw [bytes_append]
  exact List.prefix_append _ _

theorem bytes_injective : Function.Injective bytes := by
  intro a b h
  have hab : a <+: b := prefix_of_bytes (h ▸ List.prefix_refl _)
  have hba : b <+: a := prefix_of_bytes (h ▸ List.prefix_refl _)
  exact hab.eq_of_length_le hba.length_le

/-- What follows a text, in bytes. -/
theorem exists_of_bytes_eq_append {rest : List UInt8} (h : bytes text = bytes front ++ rest) :
    ∃ back, text = front ++ back ∧ bytes back = rest := by
  obtain ⟨back, rfl⟩ : front <+: text := prefix_of_bytes ⟨rest, h.symm⟩
  rw [bytes_append] at h
  exact ⟨back, rfl, List.append_cancel_left h⟩

/-- A character below 128 is one byte, and a byte below 128 is such a character. -/
theorem encode_low (h : c.val.toNat ≤ 127) :
    String.utf8EncodeChar c = [UInt8.ofNat c.val.toNat] := if_pos h

theorem encode_of_mem {b : UInt8} (hb : b < 128) (h : b ∈ String.utf8EncodeChar c) :
    String.utf8EncodeChar c = [b] := by
  by_cases hc : c.val.toNat ≤ 127
  · rw [encode_low hc] at h ⊢
    rw [List.mem_singleton.mp h]
  · have hhigh : ∀ n : ℕ, 128 ≤ n % 256 → b ≠ UInt8.ofNat n := by
      rintro n hn rfl
      rw [UInt8.lt_iff_toNat_lt, UInt8.toNat_ofNat'] at hb
      exact absurd hb (not_lt.mpr hn)
    exfalso
    rw [String.utf8EncodeChar] at h
    split_ifs at h
    · simp only [List.mem_cons, List.not_mem_nil, or_false] at h
      rcases h with h | h
      · exact hhigh _ (by omega) h
      · exact hhigh _ (by omega) h
    · simp only [List.mem_cons, List.not_mem_nil, or_false] at h
      rcases h with h | h | h
      · exact hhigh _ (by omega) h
      · exact hhigh _ (by omega) h
      · exact hhigh _ (by omega) h
    · simp only [List.mem_cons, List.not_mem_nil, or_false] at h
      rcases h with h | h | h | h
      · exact hhigh _ (by omega) h
      · exact hhigh _ (by omega) h
      · exact hhigh _ (by omega) h
      · exact hhigh _ (by omega) h

theorem encode_injective : Function.Injective String.utf8EncodeChar := by
  intro c d h
  have hbytes : bytes [c] = bytes [d] := by simp [h]
  exact List.singleton_injective (bytes_injective hbytes)

/-- A byte below 128 stands for a character of its own. -/
theorem exists_of_mem_bytes {b : UInt8} (hb : b < 128) (h : b ∈ bytes text) :
    ∃ c ∈ text, String.utf8EncodeChar c = [b] := by
  obtain ⟨c, hc, hmem⟩ := List.mem_flatMap.mp h
  exact ⟨c, hc, encode_of_mem hb hmem⟩

/-- A text is split in front of and behind such a byte. -/
theorem exists_split {before after : List UInt8} {b : UInt8} (hb : b < 128)
    (h : bytes text = before ++ b :: after) :
    ∃ front c back, text = front ++ c :: back ∧ String.utf8EncodeChar c = [b] ∧
      bytes front = before ∧ bytes back = after := by
  induction text generalizing before with
  | nil => simp at h
  | cons c text ih =>
    rw [bytes_cons] at h
    -- the byte lies behind the first character or in it
    rcases List.append_eq_append_iff.mp h with ⟨before', rfl, hrest⟩ | ⟨left, hc, hrest⟩
    · obtain ⟨front, d, back, rfl, hd, rfl, rfl⟩ := ih hrest
      exact ⟨c :: front, d, back, rfl, hd, rfl, rfl⟩
    · cases left with
      | nil =>
        have hbytes : bytes text = [] ++ b :: after := hrest.symm
        obtain ⟨front, d, back, rfl, hd, hfront, rfl⟩ := ih hbytes
        refine ⟨c :: front, d, back, rfl, hd, ?_, rfl⟩
        rw [bytes_cons, hfront]
        simpa using hc
      | cons b' left =>
        cases hrest
        have hmem : b ∈ String.utf8EncodeChar c := by simp [hc]
        have hcode := encode_of_mem hb hmem
        rw [hcode] at hc
        obtain ⟨rfl, rfl⟩ : before = [] ∧ left = [] := by
          have hlen := congrArg List.length hc
          simp only [List.length_append, List.length_cons, List.length_nil] at hlen
          exact ⟨List.length_eq_zero_iff.mp (by omega), List.length_eq_zero_iff.mp (by omega)⟩
        exact ⟨[], c, text, rfl, hcode, rfl, rfl⟩

end Deckard.Utf8
