import Mathlib

/-!
# Texts, fields and separators

A text is the list of its code points. Programs that build keys and paths out of texts put the
fields one after the other with a separator character between them and do not escape anything, so
what can be read back depends on which fields hold the separator. This module has the two arguments
that are needed there. A field without the separator is recovered by cutting at the first separator
(`cut_append`, `append_cons_inj`). Fields from a set in which no field begins another one are
recovered wherever they stand first (`PrefixFree.append_inj`).

Texts are ordered by code points, which is the order of their UTF-8 bytes.
-/

set_option autoImplicit false

namespace ChainMain.Foundations.Texts

/-- A text: the list of its code points. -/
abbrev Text := List Char

/-- The number of bytes of a text. -/
def size (t : Text) : ℕ := (t.map Char.utf8Size).sum

/-- The characters with the Unicode property `White_Space`. -/
def isSpace (c : Char) : Bool :=
  let n := c.toNat
  (9 ≤ n && n ≤ 13) || n == 0x20 || n == 0x85 || n == 0xA0 || n == 0x1680 ||
    (0x2000 ≤ n && n ≤ 0x200A) || n == 0x2028 || n == 0x2029 || n == 0x202F || n == 0x205F ||
    n == 0x3000

/-- Nothing is left of the text when the space around it is trimmed. -/
def isBlank (t : Text) : Bool := t.all isSpace

/-! ### Cutting at a separator -/

section Cutting

variable {α : Type} [DecidableEq α] {sep : α} {a a' b b' : List α}

/-- What stands before the first separator and what stands after it. -/
def cut (sep : α) : List α → Option (List α × List α)
  | [] => none
  | c :: rest =>
    if c = sep then some ([], rest) else (cut sep rest).map fun parts ↦ (c :: parts.1, parts.2)

theorem cut_append (h : sep ∉ a) (b : List α) : cut sep (a ++ sep :: b) = some (a, b) := by
  induction a with
  | nil => simp [cut]
  | cons c rest ih =>
    obtain ⟨hc, hrest⟩ := not_or.mp (List.mem_cons.not.mp h)
    rw [List.cons_append, cut, if_neg (Ne.symm hc), ih hrest]
    rfl

theorem cut_eq_none (h : sep ∉ a) : cut sep a = none := by
  induction a with
  | nil => rfl
  | cons c rest ih =>
    obtain ⟨hc, hrest⟩ := not_or.mp (List.mem_cons.not.mp h)
    rw [cut, if_neg (Ne.symm hc), ih hrest]
    rfl

/-- A field without the separator and what follows it are recovered. -/
theorem append_cons_inj (h : sep ∉ a) (h' : sep ∉ a') (heq : a ++ sep :: b = a' ++ sep :: b') :
    a = a' ∧ b = b' := by
  have hcut := cut_append h b
  rw [heq, cut_append h' b'] at hcut
  exact ⟨(Prod.mk.inj (Option.some.inj hcut)).1.symm, (Prod.mk.inj (Option.some.inj hcut)).2.symm⟩

/-- A field without the separator, closed by it, begins a text only if it is its first field. -/
theorem eq_of_append_start (h : sep ∉ a) (h' : sep ∉ a') (hstart : a ++ [sep] <+: a' ++ sep :: b) :
    a = a' := by
  obtain ⟨rest, hrest⟩ := hstart
  rw [List.append_assoc, List.singleton_append] at hrest
  exact (append_cons_inj h h' hrest).1

end Cutting

variable {sep : Char} {a a' b b' : Text}

/-! ### Splitting and joining -/

theorem intercalate_concat {fields : List Text} (h : fields ≠ []) (last : Text) :
    [sep].intercalate (fields ++ [last]) = [sep].intercalate fields ++ sep :: last := by
  induction fields with
  | nil => exact absurd rfl h
  | cons field rest ih =>
    cases rest with
    | nil => simp
    | cons next more =>
      have hmore := ih (List.cons_ne_nil next more)
      rw [List.cons_append, List.cons_append, List.intercalate_cons_cons, ← List.cons_append, hmore,
        List.intercalate_cons_cons]
      simp

theorem not_mem_of_mem_splitOn {field t : Text} (h : field ∈ t.splitOn sep) : sep ∉ field := by
  induction t generalizing field with
  | nil => simp_all
  | cons c rest ih =>
    rw [List.splitOn, List.splitOnP_cons_eq_if_modifyHead] at h
    split_ifs at h with hc
    · rcases List.mem_cons.mp h with rfl | hrest
      · simp
      · exact ih hrest
    · have hne : sep ≠ c := fun heq ↦ hc (by simp [heq])
      obtain ⟨head, tail, hsplit⟩ := List.exists_cons_of_ne_nil (List.splitOn_ne_nil sep rest)
      rw [List.splitOn] at hsplit
      rw [hsplit, List.modifyHead_cons] at h
      have hall : ∀ field ∈ head :: tail, sep ∉ field := by
        intro field hfield
        exact ih (by rw [List.splitOn, hsplit]; exact hfield)
      rcases List.mem_cons.mp h with rfl | htail
      · rw [List.mem_cons, not_or]
        exact ⟨hne, hall head List.mem_cons_self⟩
      · exact hall field (List.mem_cons_of_mem _ htail)

/-! ### Fields none of which begins another -/

/-- No text of the set begins another one. -/
def PrefixFree (fields : Set Text) : Prop := ∀ a ∈ fields, ∀ b ∈ fields, a <+: b → a = b

namespace PrefixFree

variable {fields : Set Text}

/-- A field of the set that begins a text is its first field. -/
theorem eq_of_start (h : PrefixFree fields) (ha : a ∈ fields) (ha' : a' ∈ fields)
    (hstart : a <+: a' ++ b) : a = a' := by
  rcases List.prefix_or_prefix_of_prefix hstart (List.prefix_append a' b) with hle | hle
  · exact h a ha a' ha' hle
  · exact (h a' ha' a ha hle).symm

theorem append_inj (h : PrefixFree fields) (ha : a ∈ fields) (ha' : a' ∈ fields)
    (heq : a ++ b = a' ++ b') : a = a' ∧ b = b' := by
  have hfield : a = a' := h.eq_of_start ha ha' (b := b') ⟨b, heq⟩
  subst hfield
  exact ⟨rfl, List.append_cancel_left heq⟩

theorem mono {fields' : Set Text} (h : PrefixFree fields) (hsub : fields' ⊆ fields) :
    PrefixFree fields' :=
  fun a ha b hb ↦ h a (hsub ha) b (hsub hb)

end PrefixFree

/-! ### Hexadecimal digits -/

/-- The digit of a number below sixteen, in upper case. -/
def hexDigit (n : ℕ) : Char := if n < 10 then Char.ofNat (48 + n) else Char.ofNat (55 + n)

/-- Two digits for every byte. -/
def hex (bytes : List UInt8) : Text :=
  bytes.flatMap fun byte ↦ [hexDigit (byte.toNat / 16), hexDigit (byte.toNat % 16)]

/-- The value of a digit, in upper or lower case. -/
def hexValue (c : Char) : Option ℕ :=
  let n := c.toNat
  if 48 ≤ n ∧ n ≤ 57 then some (n - 48)
  else if 65 ≤ n ∧ n ≤ 70 then some (n - 55)
  else if 97 ≤ n ∧ n ≤ 102 then some (n - 87)
  else none

/-- The bytes written by pairs of digits. -/
def unhex : Text → Option (List UInt8)
  | [] => some []
  | [_] => none
  | hi :: lo :: rest => do
    let high ← hexValue hi
    let low ← hexValue lo
    let bytes ← unhex rest
    return UInt8.ofNat (high * 16 + low) :: bytes

theorem hexValue_hexDigit {n : ℕ} (h : n < 16) : hexValue (hexDigit n) = some n := by
  interval_cases n <;> decide

theorem hexDigit_ne_slash {n : ℕ} (h : n < 16) : hexDigit n ≠ '/' := by
  interval_cases n <;> decide

theorem length_hex (bytes : List UInt8) : (hex bytes).length = 2 * bytes.length := by
  simp [hex, List.length_flatMap, mul_comm]

theorem slash_not_mem_hex (bytes : List UInt8) : '/' ∉ hex bytes := by
  intro h
  obtain ⟨byte, -, hdigit⟩ := List.mem_flatMap.mp h
  have hlt := byte.toNat_lt
  rcases List.mem_pair.mp hdigit with hhigh | hlow
  · exact hexDigit_ne_slash (by omega) hhigh.symm
  · exact hexDigit_ne_slash (by omega) hlow.symm

theorem unhex_hex (bytes : List UInt8) : unhex (hex bytes) = some bytes := by
  induction bytes with
  | nil => rfl
  | cons byte rest ih =>
    have hlt := byte.toNat_lt
    have hsplit : hex (byte :: rest) =
        hexDigit (byte.toNat / 16) :: hexDigit (byte.toNat % 16) :: hex rest := by
      simp [hex]
    have hbyte : UInt8.ofNat (byte.toNat / 16 * 16 + byte.toNat % 16) = byte := by
      rw [Nat.div_add_mod' byte.toNat 16]
      exact UInt8.ofNat_toNat
    rw [hsplit, unhex, hexValue_hexDigit (by omega), hexValue_hexDigit (by omega), ih]
    exact congrArg (fun first ↦ some (first :: rest)) hbyte

theorem hex_injective : Function.Injective hex := by
  intro bytes bytes' h
  have hback := congrArg unhex h
  rw [unhex_hex, unhex_hex] at hback
  exact Option.some.inj hback

end ChainMain.Foundations.Texts
