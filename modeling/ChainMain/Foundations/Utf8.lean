import ChainMain.Foundations.Texts

/-!
# Texts and their bytes

The UTF-8 bytes of a text. No encoded character begins another one, so a text is recovered from its
bytes and begins another text exactly when its bytes begin those of the other one
(`utf8_start_iff`). A character below 128 is one byte, which stands in no other encoded character,
so cutting the bytes at it cuts the text (`cut_utf8`).
-/

set_option autoImplicit false

namespace ChainMain.Foundations.Texts

/-- A string of bytes. -/
abbrev Bytes := List UInt8

/-- The bytes of a text. -/
def utf8 (t : Text) : Bytes := t.flatMap String.utf8EncodeChar

variable {t u : Text} {c c' : Char}

@[simp] theorem utf8_nil : utf8 [] = [] := rfl

@[simp] theorem utf8_cons (c : Char) (t : Text) :
    utf8 (c :: t) = String.utf8EncodeChar c ++ utf8 t := by
  rw [utf8, List.flatMap_cons, utf8]

@[simp] theorem utf8_append (t u : Text) : utf8 (t ++ u) = utf8 t ++ utf8 u := by
  rw [utf8, List.flatMap_append, utf8, utf8]

theorem length_utf8 (t : Text) : (utf8 t).length = size t := by
  rw [utf8, List.length_flatMap, size]
  simp only [String.length_utf8EncodeChar]

/-- The first character is recovered from the bytes. -/
theorem eq_of_encode_append_eq {rest rest' : Bytes}
    (h : String.utf8EncodeChar c ++ rest = String.utf8EncodeChar c' ++ rest') : c = c' := by
  have hdecode := congrArg (fun bytes : Bytes ↦ bytes.toByteArray.utf8DecodeChar? 0) h
  simp only [List.toByteArray_append, ByteArray.utf8DecodeChar?_utf8EncodeChar_append] at hdecode
  exact Option.some.inj hdecode

theorem utf8_start_iff (t u : Text) : utf8 t <+: utf8 u ↔ t <+: u := by
  constructor
  · intro h
    induction t generalizing u with
    | nil => exact List.nil_prefix
    | cons c rest ih =>
      obtain ⟨after, hafter⟩ := h
      rw [utf8_cons, List.append_assoc] at hafter
      cases u with
      | nil => exact absurd (List.append_eq_nil_iff.mp hafter).1 String.utf8EncodeChar_ne_nil
      | cons c' rest' =>
        rw [utf8_cons] at hafter
        obtain rfl := eq_of_encode_append_eq hafter
        exact List.cons_prefix_cons.mpr ⟨rfl, ih rest' ⟨after, List.append_cancel_left hafter⟩⟩
  · rintro ⟨after, rfl⟩
    exact ⟨utf8 after, (utf8_append t after).symm⟩

theorem utf8_injective : Function.Injective utf8 := by
  intro t u h
  have htu : t <+: u := (utf8_start_iff t u).mp (h ▸ List.prefix_rfl)
  have hut : u <+: t := (utf8_start_iff u t).mp (h ▸ List.prefix_rfl)
  exact htu.eq_of_length (le_antisymm htu.length_le hut.length_le)

/-! ### Characters of one byte -/

theorem encode_of_lt (h : c.toNat < 128) : String.utf8EncodeChar c = [UInt8.ofNat c.toNat] := by
  rw [String.utf8EncodeChar]
  exact if_pos (Nat.le_of_lt_succ h)

/-- The bytes of all other characters are not below 128. -/
theorem le_of_mem_encode {b : UInt8} (hc : 128 ≤ c.toNat) (h : b ∈ String.utf8EncodeChar c) :
    128 ≤ b.toNat := by
  have hval : ¬ c.val.toNat ≤ 127 := Nat.not_le.mpr hc
  rw [String.utf8EncodeChar] at h
  split_ifs at h
  · rcases List.mem_pair.mp h with rfl | rfl <;> rw [UInt8.toNat_ofNat'] <;> omega
  · simp only [List.mem_cons, List.not_mem_nil, or_false] at h
    rcases h with rfl | rfl | rfl <;> rw [UInt8.toNat_ofNat'] <;> omega
  · simp only [List.mem_cons, List.not_mem_nil, or_false] at h
    rcases h with rfl | rfl | rfl | rfl <;> rw [UInt8.toNat_ofNat'] <;> omega

/-- The byte of such a character stands in the encoding of no other one. -/
theorem mem_encode_iff (h : c.toNat < 128) :
    UInt8.ofNat c.toNat ∈ String.utf8EncodeChar c' ↔ c' = c := by
  have hbyte : (UInt8.ofNat c.toNat).toNat = c.toNat := by
    rw [UInt8.toNat_ofNat']
    omega
  constructor
  · intro hmem
    by_cases hc' : c'.toNat < 128
    · rw [encode_of_lt hc'] at hmem
      have hnat := congrArg UInt8.toNat (List.mem_singleton.mp hmem)
      rw [hbyte, UInt8.toNat_ofNat'] at hnat
      exact Char.toNat_inj.mp (by omega)
    · have hle := le_of_mem_encode (Nat.le_of_not_lt hc') hmem
      omega
  · rintro rfl
    rw [encode_of_lt h]
    exact List.mem_singleton_self _

theorem mem_utf8_iff (h : c.toNat < 128) : UInt8.ofNat c.toNat ∈ utf8 t ↔ c ∈ t := by
  rw [utf8, List.mem_flatMap]
  constructor
  · rintro ⟨c', hc', hmem⟩
    exact (mem_encode_iff h).mp hmem ▸ hc'
  · intro hc
    exact ⟨c, hc, (mem_encode_iff h).mpr rfl⟩

theorem cut_utf8 (h : c.toNat < 128) (t : Text) :
    cut (UInt8.ofNat c.toNat) (utf8 t) = (cut c t).map (Prod.map utf8 utf8) := by
  by_cases hmem : c ∈ t
  · obtain ⟨before, after, rfl, hnot⟩ := List.eq_append_cons_of_mem hmem
    have hbytes : UInt8.ofNat c.toNat ∉ utf8 before := (mem_utf8_iff h).not.mpr hnot
    rw [cut_append hnot, utf8_append, utf8_cons, encode_of_lt h, List.singleton_append,
      cut_append hbytes]
    rfl
  · rw [cut_eq_none hmem, cut_eq_none ((mem_utf8_iff h).not.mpr hmem)]
    rfl

end ChainMain.Foundations.Texts
